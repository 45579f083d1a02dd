import ZjuOs.Mmaps

/-!
What new tasks, faults and forks keep: inner tables and their ways, the roots of the tasks, and the bytes of the
frames in use that belong to no task.
-/
namespace ZjuOs
open Memory Exec Radix

/-- From `s` to `t` no table has lost a way, no frame of the kernel has changed, and a new task has the kernel
half of the kernel's root. -/
structure Carried (img : Image) (lay lay' : Layout) (s t : KState) : Prop where
  live : ∀ i, s.Live i → t.Live i ∧ lay'.root i = lay.root i
  table : ∀ f r p, lay.role f = .table r p → lay'.role f = .table r p
  inner : InnerKept lay s.mem t.mem
  image : ∀ f, f < img.firstFree → SameFrame t.mem s.mem f
  idle : t.task 0 = s.task 0
  other : ∀ f, img.Ram f → s.ref f ≠ 0 → lay.role f = .other →
    lay'.role f = .other ∧ t.ref f ≠ 0 ∧ (s.task 0 ≠ framePtr f → SameFrame t.mem s.mem f)
  born : ∀ i, t.Live i → s.Live i ∨ ∀ k : Fin 512, 384 ≤ k.val → tables t.mem (lay'.root i) k = tables s.mem img.swapperFrame k

/-- At `t` the frames in use at `s` have no role and the bytes they had, and the tasks have the kernel half that the
kernel's root had. -/
structure Inherited (img : Image) (s : KState) (lay : Layout) (t : KState) : Prop where
  image : ∀ f, f < img.firstFree → SameFrame t.mem s.mem f
  other : ∀ f, img.Ram f → s.ref f ≠ 0 →
    lay.role f = .other ∧ t.ref f ≠ 0 ∧ t.task 0 ≠ framePtr f ∧ SameFrame t.mem s.mem f
  root : ∀ i, t.Live i → ∀ k : Fin 512, 384 ≤ k.val → tables t.mem (lay.root i) k = tables s.mem img.swapperFrame k

section Carried
variable {img : Image} {lay lay' lay'' : Layout} {s t u : KState}

theorem Carried.refl (lay : Layout) (s : KState) : Carried img lay lay s s where
  live := fun _ hi => ⟨hi, rfl⟩
  table := fun _ _ _ hf => hf
  inner := .refl
  image := fun _ _ => .refl _ _
  idle := rfl
  other := fun _ _ href hf => ⟨hf, href, fun _ => .refl _ _⟩
  born := fun _ hi => .inl hi

theorem Carried.trans (hp : Paging img lay' t) (h : Carried img lay lay' s t) (h' : Carried img lay' lay'' t u) :
    Carried img lay lay'' s u where
  live := fun i hi => by
    obtain ⟨hi', hroot⟩ := h.live i hi
    obtain ⟨hi'', hroot'⟩ := h'.live i hi'
    exact ⟨hi'', hroot'.trans hroot⟩
  table := fun f r p hf => h'.table f r p (h.table f r p hf)
  inner := h.inner.trans h.table h'.inner
  image := fun f hf => (h'.image f hf).trans (h.image f hf)
  idle := h'.idle.trans h.idle
  other := fun f hf href hother => by
    obtain ⟨hother', href', hsame⟩ := h.other f hf href hother
    obtain ⟨hother'', href'', hsame'⟩ := h'.other f hf href' hother'
    exact ⟨hother'', href'', fun hidle => (hsame' (h.idle ▸ hidle)).trans (hsame hidle)⟩
  born := fun i hi => by
    rcases h'.born i hi with hi' | hnew
    · rcases h.born i hi' with hold | hnew
      · exact .inl hold
      · refine .inr fun k hk => ?_
        rw [(h'.live i hi').2, h'.inner.kernel (hp.task_ok hi').root hk]
        exact hnew k hk
    · refine .inr fun k hk => ?_
      rw [hnew k hk, tables_congr (h.image _ img.swapperFrame_lt)]

/-- The tasks and the layout are the same, and so are the tables and the frames of the kernel. -/
theorem Carried.same (hinner : InnerKept lay s.mem t.mem) (htask : t.task = s.task)
    (himage : ∀ f, f < img.firstFree → SameFrame t.mem s.mem f) (href : ∀ f, img.Ram f → s.ref f ≠ 0 → t.ref f ≠ 0)
    (hother : ∀ f, lay.role f = .other → s.task 0 ≠ framePtr f → SameFrame t.mem s.mem f) : Carried img lay lay s t := by
  have hlive : ∀ i, t.Live i ↔ s.Live i := fun i => by rw [KState.Live, KState.Live, htask]
  exact
    { live := fun i hi => ⟨(hlive i).mpr hi, rfl⟩
      table := fun _ _ _ hf => hf
      inner := hinner
      image := himage
      idle := congrFun htask 0
      other := fun f hram hne hf => ⟨hf, href f hram hne, hother f hf⟩
      born := fun i hi => .inl ((hlive i).mp hi) }

theorem Calm.carried {drop : Option Nat} (hc : Calm img lay lay' s t drop) : Carried img lay lay' s t where
  live := fun i hi => ⟨hc.tasks.live.mpr hi, by rw [hc.root]⟩
  table := fun _ _ _ hf => hc.table hf
  inner := hc.inner
  image := hc.image
  idle := by rw [hc.tasks.task]
  other := fun f hf hne hother => by
    refine ⟨?_, hc.live f hf hne, fun _ => hc.frame f (fun r p hp => by rw [hother] at hp; cases hp) hne⟩
    by_contra hno
    exact hne (hc.added f hother hno)
  born := fun i hi => .inl (hc.tasks.live.mp hi)

theorem Remapped.carried {r va pte : Nat} {drop : Option Nat} (hm : Remapped img lay lay' s t r va pte drop)
    (hmany : ∀ f, drop = some f → s.ref f ≠ 1) : Carried img lay lay' s t where
  live := fun i hi => ⟨hm.tasks.live.mpr hi, by rw [hm.root]⟩
  table := fun f r p hf => by rw [hm.role f (by rw [hf]; exact Role.noConfusion), hf]
  inner := hm.inner
  image := hm.image
  idle := by rw [hm.tasks.task]
  other := fun f hf hne hother => by
    refine ⟨?_, hm.live hmany hf hne, fun _ => hm.frame f (fun r p hp => by rw [hother] at hp; cases hp) hne⟩
    by_contra hno
    exact hne (hm.added f hother hno)
  born := fun i hi => .inl (hm.tasks.live.mp hi)

theorem Resolved.carried {r va scause : Nat} {area : VmArea} (hres : Resolved img lay s r va area scause lay' t) :
    Carried img lay lay' s t := by
  cases hres with
  | demand g _ _ _ _ _ hm _ _ => exact hm.carried fun _ hd => by cases hd
  | own old g _ _ _ _ _ hm _ => exact hm.carried fun _ hd => by cases hd
  | copy old g g₁ _ _ _ hmany _ _ _ _ _ _ hm _ _ _ _ =>
      refine hm.carried fun f hd => ?_
      cases hd
      exact hmany

theorem Spawned.carried {j c d w : Nat} (h : Paging img lay s) (hs : Spawned img s t j c d w) :
    Carried img lay (lay.spawn j c d) s t where
  live := fun i hi => by
    refine ⟨hs.live.mpr (.inl hi), Function.update_of_ne ?_ ..⟩
    rintro rfl
    exact hi.2.2 hs.empty
  table := fun f r p hf => by rw [(hs.role h (by rw [hf]; exact Role.noConfusion)).2.2, hf]
  inner := .of_same fun f r p hf _ => by
    obtain ⟨hc, hd, -⟩ := hs.role h (f := f) (by rw [hf]; exact Role.noConfusion)
    exact hs.frame f hc hd
  image := fun f hf => hs.frame f (by have := hs.abovePage; omega) (by have := hs.aboveRoot; omega)
  idle := by
    rw [hs.task]
    exact Function.update_of_ne (Nat.ne_of_lt hs.pos) ..
  other := fun f hf hne hother => by
    have hc : f ≠ c := by
      rintro rfl
      exact hne hs.freePage
    have hd : f ≠ d := by
      rintro rfl
      exact hne hs.freeRoot
    refine ⟨by rw [Layout.role_spawn_of_ne hc hd, hother], ?_, fun _ => hs.frame f hc hd⟩
    rw [hs.ref f hf hne]
    exact hne
  born := fun i hi => by
    rcases hs.live.mp hi with hold | rfl
    · exact .inl hold
    · refine .inr fun k _ => ?_
      rw [show (lay.spawn i c d).root i = d from Function.update_self ..]
      exact hs.kernel_entry k

theorem Kept.carried {r n : Nat} (hk : Kept img lay lay' s t r n) : Carried img lay lay' s t where
  live := fun i hi => ⟨hk.tasks.live.mpr hi, by rw [hk.root]⟩
  table := fun f r p hf => by rw [hk.role f (by rw [hf]; exact Role.noConfusion), hf]
  inner := hk.inner
  image := fun f hf => hk.frame f fun r p hp => by
    have := (hk.paging.table_held hp).2.1
    omega
  idle := by rw [hk.tasks.task]
  other := fun f hf hne hother => by
    have hother' : lay'.role f = .other := by
      by_contra hno
      exact hne (hk.added f hother hno).1
    refine ⟨hother', ?_, fun _ => hk.frame f fun r p hp => by rw [hother'] at hp; cases hp⟩
    have := (hk.ref f hf hne).1
    omega
  born := fun i hi => .inl (hk.tasks.live.mp hi)

theorem CowForked.carried {i : Nat} {l : List Nat} {n : Int} (h : Paging img lay s) (hi : s.Live i)
    (hf : CowForked img lay s i l n lay' t) : Carried img lay lay' s t := by
  cases hf with
  | full _ _ _ hc => exact hc.carried
  | child j c d u v _ hs hsh ht =>
      have hp := hs.paging h
      have hspawn := hs.carried h
      obtain ⟨hi', hroot⟩ := hspawn.live i hi
      have hk := hsh.kept hp (by rw [← hroot]; exact (hp.task_ok hi').root)
      rw [ht]
      have hfence : Carried img lay' lay' v (v.log (.fence v.mem)) :=
        .same .refl rfl (fun _ _ => .refl _ _) (fun _ _ hne => hne) fun _ _ _ => .refl _ _
      exact hspawn.trans hp (hk.carried.trans hk.paging hfence)

theorem Inherited.carried (h : Inherited img s lay t) (hp : Paging img lay t) (hc : Carried img lay lay' t u) :
    Inherited img s lay' u where
  image := fun f hf => (hc.image f hf).trans (h.image f hf)
  other := fun f hf hne => by
    obtain ⟨hother, href, hidle, hsame⟩ := h.other f hf hne
    obtain ⟨hother', href', hsame'⟩ := hc.other f hf href hother
    exact ⟨hother', href', hc.idle ▸ hidle, (hsame' hidle).trans hsame⟩
  root := fun i hi k hk => by
    rcases hc.born i hi with hold | hnew
    · rw [(hc.live i hold).2, hc.inner.kernel (hp.task_ok hold).root hk]
      exact h.root i hold k hk
    · rw [hnew k hk, tables_congr (h.image _ img.swapperFrame_lt)]

end Carried

end ZjuOs
