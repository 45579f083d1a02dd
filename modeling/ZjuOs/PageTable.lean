import ZjuOs.Radix
import ZjuOs.Trace

/-!
The page tables in memory as radix tables, and what one level of the walk of `create_mapping` does to
them.
-/
namespace ZjuOs
open Memory Exec

def pteFormat : Radix.Format Nat Nat := { valid := fun pte => pte % 2 == 1, target := pteFrame }

def tables (m : Mem) : Nat → Fin 512 → Nat := fun f i => entry m f i

def vpn (va j : Nat) : Fin 512 := ⟨VPN va j, VPN_lt va j⟩

/-- The way of `va` through the two inner levels. -/
def path (va : Nat) : List (Fin 512) := [vpn va 2, vpn va 1]

/-- The leaf entry of `va` under the root table `root`, when every entry on the way is valid. -/
def leafPte (m : Mem) (root va : Nat) : Option Nat :=
  Radix.lookup pteFormat (tables m) root (path va) (vpn va 0)

section View
variable {m m' : Mem} {f g va : Nat} {i : Fin 512}

@[simp] theorem pteFormat_target {pte : Nat} : pteFormat.target pte = pteFrame pte := rfl

@[simp] theorem pteFormat_valid {pte : Nat} : pteFormat.valid pte = true ↔ pte % 2 = 1 := by
  simp [pteFormat]

@[simp] theorem pteFormat_invalid {pte : Nat} : pteFormat.valid pte = false ↔ pte % 2 = 0 := by
  have := Nat.mod_two_eq_zero_or_one pte
  simp only [pteFormat, beq_eq_false_iff_ne, ne_eq]
  omega

theorem tables_setEntry (m : Mem) (f : Nat) (i : Fin 512) (v : Nat) :
    tables (setEntry m f i v) = Radix.set (tables m) f i (v % 2 ^ 64) := by
  funext g j
  by_cases h : f = g ∧ i = j
  · obtain ⟨rfl, rfl⟩ := h
    rw [Radix.set_self]
    exact entry_setEntry_self m f i v
  · have hne : f ≠ g ∨ i ≠ j := by
      by_cases hf : f = g
      · exact .inr fun hi => h ⟨hf, hi⟩
      · exact .inl hf
    rw [Radix.set_of_ne (by rcases hne with h | h; exact .inl (Ne.symm h); exact .inr (Ne.symm h))]
    refine entry_setEntry_of_ne i.isLt j.isLt ?_
    rcases hne with h | h
    · exact .inl h
    · exact .inr fun hij => h (Fin.ext hij)

theorem tables_congr (h : SameFrame m m' f) : tables m f = tables m' f := by
  funext j
  exact h.entry j.isLt

theorem tables_lt (m : Mem) (f : Nat) (i : Fin 512) : tables m f i < 2 ^ 64 := entry_lt m f i

theorem leafPte_eq_some {root pte : Nat} :
    leafPte m root va = some pte ↔ ∃ l, Radix.descend pteFormat (tables m) root (path va) = some l ∧
      tables m l (vpn va 0) = pte ∧ pte % 2 = 1 := by
  rw [leafPte, Radix.lookup_eq_descend, Option.bind_eq_some_iff]
  refine exists_congr fun l => and_congr_right fun _ => ?_
  split
  · next hv =>
      rw [Option.some.injEq]
      refine ⟨fun h => ⟨h, ?_⟩, fun h => h.1⟩
      rw [← h]
      exact pteFormat_valid.mp hv
  · next hv =>
      refine iff_of_false (by simp) ?_
      rintro ⟨h, ho⟩
      exact hv (pteFormat_valid.mpr (h ▸ ho))

theorem vpn_eq_of_page {va va' : Nat} (h : va / 4096 % 2 ^ 27 = va' / 4096 % 2 ^ 27) (j : Nat) (hj : j ≤ 2) :
    vpn va j = vpn va' j := by
  refine Fin.ext ?_
  simp only [vpn, VPN_eq]
  obtain rfl | rfl | rfl : j = 0 ∨ j = 1 ∨ j = 2 := by omega
  · omega
  · omega
  · omega

/-- The path and the leaf index determine the page. -/
theorem page_of_vpn {va va' : Nat} (hp : path va = path va') (h0 : vpn va 0 = vpn va' 0) :
    va / 4096 % 2 ^ 27 = va' / 4096 % 2 ^ 27 := by
  simp only [path, List.cons.injEq, and_true] at hp
  have h2 := congrArg Fin.val hp.1
  have h1 := congrArg Fin.val hp.2
  have h0 := congrArg Fin.val h0
  simp only [vpn, VPN_eq] at h0 h1 h2
  omega

theorem leafPte_page {root va va' : Nat} (h : va / 4096 % 2 ^ 27 = va' / 4096 % 2 ^ 27) :
    leafPte m root va = leafPte m root va' := by
  rw [leafPte, leafPte, path, path, vpn_eq_of_page h 0 (by omega), vpn_eq_of_page h 1 (by omega),
    vpn_eq_of_page h 2 (by omega)]

end View

section NextTable
variable {img : Image} {s : KState} {f : Nat} {i : Fin 512}

@[simp] theorem KState.edit_mem (s : KState) (f i v : Nat) : (s.edit f i v).mem = setEntry s.mem f i v := rfl

@[simp] theorem KState.edit_buddy (s : KState) (f i v : Nat) : (s.edit f i v).buddy = s.buddy := rfl

@[simp] theorem KState.ref_edit (s : KState) (f i v g : Nat) : (s.edit f i v).ref g = s.ref g := rfl

/-- Frame `g` is handed out as a table and entered at word `i` of table `f`. -/
def KState.addTable (s : KState) (f i g : Nat) : KState :=
  (s.log (.table (framePtr g) s.mem)).edit f i (2 ^ 10 * g + 1)

/-- What one level of the walk returns: the next table, a new one, or null when no frame is free. -/
inductive NextTable (img : Image) (s : KState) (f : Nat) (i : Fin 512) (p : Nat) (t : KState) : Prop
  | present : tables s.mem f i % 2 = 1 → p = pteTable (tables s.mem f i) → t = s → NextTable img s f i p t
  | fresh (u : KState) (g : Nat) : tables s.mem f i % 2 = 0 → Taken img s u g → p = framePtr g →
      t = u.addTable f i g → NextTable img s f i p t
  | full : tables s.mem f i % 2 = 0 → (∀ g, img.Ram g → t.ref g ≠ 0) → p = 0 → t.buddy = s.buddy →
      NextTable img s f i p t

theorem nextTable_spec (hs : s.Pages img) (hf : img.Ram f) :
    Ends (nextTable img (framePtr f) i) s (NextTable img s f i) fun _ _ => False := by
  rw [nextTable, ends_bind, ends_loadEntry hf i.isLt, and_one_eq]
  have hentry : entry s.mem f i = tables s.mem f i := rfl
  rw [hentry]
  by_cases h0 : tables s.mem f i % 2 = 0
  · rw [if_pos h0, ends_bind]
    refine (allocPage_spec hs).mono ?_ fun _ _ h => h
    rintro p t (⟨rfl, rfl, hfull⟩ | ⟨g, rfl, htaken⟩)
    · simp only [ends_bind, ends_modify, ends_pure]
      rw [ends_storeEntry hf i.isLt]
      exact .full h0 hfull rfl rfl
    · simp only [ends_bind, ends_modify, ends_pure]
      have hpte : mkPte (VA2PA (framePtr g + 0)) 0x1 = 2 ^ 10 * g + 0x1 :=
        mkPte_framePtr htaken.ram (by omega) (by omega)
      rw [Nat.add_zero] at hpte
      rw [ends_storeEntry hf i.isLt, hpte]
      exact .fresh t g h0 htaken rfl rfl
  · have h1 : tables s.mem f i % 2 = 1 := by omega
    rw [if_neg h0, ends_pure]
    exact .present h1 rfl rfl

end NextTable

end ZjuOs
