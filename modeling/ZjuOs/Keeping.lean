import ZjuOs.Proc
import ZjuOs.Syscall

/-! What the kernel's paths keep of the allocator and the areas, whatever they load, store and map. -/
namespace ZjuOs
open Memory Exec

/-- A property of a state that neither memory nor the trace decides, and that a page taken for a table keeps. -/
structure Blind (P : KState → Prop) : Prop where
  withMem : ∀ s m, P s → P (s.withMem m)
  log : ∀ s e, P s → P (s.log e)
  allocPage : Keeps P allocPage

section Blind
variable {img : Image} {P : KState → Prop}

/-- What memory, the trace and the allocator do not decide. -/
theorem blind_of (hmem : ∀ s m, P s → P (s.withMem m)) (hlog : ∀ s e, P s → P (s.log e))
    (hbuddy : ∀ s b, P s → P (s.withBuddy b)) : Blind P := by
  refine ⟨hmem, hlog, keeps_bind keeps_get fun s => ?_⟩
  cases buddyAlloc s.buddy 1 with
  | none => exact keeps_throw _
  | some r => exact keeps_bind (keeps_modify fun s => hbuddy s _) fun _ => keeps_pure _

theorem keeps_kernelPa (bit va : Nat) : Keeps P (kernelPa img bit va) := by
  refine keeps_ite (keeps_pure _) (keeps_bind keeps_get fun s => ?_)
  split
  · exact keeps_ite (keeps_pure _) (keeps_throw _)
  · exact keeps_throw _

theorem keeps_loadWord (va : Nat) : Keeps P (loadWord img va) :=
  keeps_bind (keeps_kernelPa ..) fun _ => keeps_bind keeps_get fun _ => keeps_pure _

theorem keeps_loadByte (va : Nat) : Keeps P (loadByte img va) :=
  keeps_bind (keeps_kernelPa ..) fun _ => keeps_bind keeps_get fun _ => keeps_pure _

theorem keeps_notNull (p : Nat) : Keeps P (notNull p) := keeps_ite (keeps_throw _) (keeps_pure _)

theorem keeps_loadEntry (ptr i : Nat) : Keeps P (loadEntry img ptr i) :=
  keeps_bind (keeps_notNull _) fun _ => keeps_loadWord _

theorem keeps_walkTables (va j ptr : Nat) : Keeps P (walkTables img va j ptr) := by
  induction j generalizing ptr with
  | zero => exact keeps_pure _
  | succ j ih => exact keeps_bind (keeps_loadEntry ..) fun _ => keeps_ite (keeps_pure _) (ih _)

theorem keeps_checkValid (va pgd : Nat) : Keeps P (checkValid img va pgd) := by
  refine keeps_bind (keeps_walkTables ..) fun o => ?_
  cases o with
  | none => exact keeps_pure _
  | some ptr => exact keeps_bind (keeps_loadEntry ..) fun _ => keeps_pure _

variable (hP : Blind P)
include hP

theorem Blind.storeWord (va v : Nat) : Keeps P (storeWord img va v) :=
  keeps_bind (keeps_kernelPa ..) fun _ => keeps_modify fun s => hP.withMem s _

theorem Blind.storeWords (va : Nat) (vs : List Nat) : Keeps P (storeWords img va vs) := by
  induction vs generalizing va with
  | nil => exact keeps_pure _
  | cons v vs ih => exact keeps_bind (hP.storeWord ..) fun _ => ih _

theorem Blind.copyRoot (pgd n j : Nat) : Keeps P (copyRoot img pgd n j) := by
  induction n generalizing j with
  | zero => exact keeps_pure _
  | succ n ih => exact keeps_bind (keeps_loadWord _) fun _ => keeps_bind (hP.storeWord ..) fun _ => ih _

theorem Blind.storeByte (va : Nat) (c : UInt8) : Keeps P (storeByte img va c) :=
  keeps_bind (keeps_kernelPa ..) fun _ => keeps_modify fun s => hP.withMem s _

theorem Blind.memset (dest : Nat) (c : UInt8) (n : Nat) : Keeps P (memset img dest c n) := by
  induction n generalizing dest with
  | zero => exact keeps_pure _
  | succ n ih => exact keeps_bind (hP.storeByte ..) fun _ => ih _

theorem Blind.memcpy (dest source n : Nat) : Keeps P (memcpy img dest source n) := by
  induction n generalizing dest source with
  | zero => exact keeps_pure _
  | succ n ih => exact keeps_bind (keeps_loadByte _) fun _ => keeps_bind (hP.storeByte ..) fun _ => ih _ _

theorem Blind.storeEntry (ptr i v : Nat) : Keeps P (storeEntry img ptr i v) :=
  keeps_bind (keeps_notNull _) fun _ => keeps_bind (keeps_kernelPa ..) fun _ =>
    keeps_modify fun s hs => hP.log _ _ (hP.withMem s _ hs)

theorem Blind.nextTable (ptr i : Nat) : Keeps P (nextTable img ptr i) :=
  keeps_bind (keeps_loadEntry ..) fun _ =>
    keeps_ite
      (keeps_bind hP.allocPage fun _ => keeps_bind (keeps_modify fun s => hP.log s _) fun _ =>
        keeps_bind (hP.storeEntry ..) fun _ => keeps_pure _)
      (keeps_pure _)

theorem Blind.mapPage (pgtbl va pa perm : Nat) : Keeps P (mapPage img pgtbl va pa perm) :=
  keeps_bind (hP.nextTable ..) fun _ => keeps_bind (hP.nextTable ..) fun _ => hP.storeEntry ..

theorem Blind.mapPages (pgtbl perm n va pa : Nat) : Keeps P (mapPages img pgtbl perm n va pa) := by
  induction n generalizing va pa with
  | zero => exact keeps_pure _
  | succ n ih => exact keeps_bind (hP.mapPage ..) fun _ => ih _ _

theorem Blind.copyPage (child va flags : Nat) : Keeps P (copyPage img child va flags) :=
  keeps_bind hP.allocPage fun _ => keeps_bind (keeps_notNull _) fun _ =>
    keeps_bind (hP.memset ..) fun _ => keeps_bind (hP.memcpy ..) fun _ =>
      keeps_bind (keeps_loadWord _) fun _ => hP.mapPages ..

omit hP

theorem keeps_forValidPages {visit : Nat → K Unit} (h : ∀ va, Keeps P (visit va)) (fuel va stop : Nat) :
    Keeps P (forValidPages img visit fuel va stop) := by
  induction fuel generalizing va with
  | zero => exact keeps_throw _
  | succ fuel ih =>
      refine keeps_ite ?_ (keeps_pure _)
      exact keeps_bind keeps_get fun _ => keeps_bind (keeps_loadWord _) fun _ =>
        keeps_bind (keeps_checkValid ..) fun _ => keeps_ite (keeps_bind (h va) fun _ => ih _) (ih _)

theorem keeps_forAreas {visit : VmArea → K Unit} (h : ∀ a, Keeps P (visit a)) (fuel ptr : Nat) :
    Keeps P (forAreas visit fuel ptr) := by
  induction fuel generalizing ptr with
  | zero => exact keeps_throw _
  | succ fuel ih =>
      refine keeps_ite (keeps_pure _) (keeps_bind keeps_get fun _ => keeps_bind (h _) fun _ => ?_)
      exact keeps_bind keeps_get fun _ => ih _

end Blind

end ZjuOs
