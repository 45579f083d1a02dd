import Mathlib.Algebra.BigOperators.Group.Finset.Basic
import Mathlib.Algebra.BigOperators.Ring.Finset
import Mathlib.Algebra.Order.BigOperators.Group.Finset
import Mathlib.Logic.Relation

/-!
# Sharing frames copy-on-write

Slots map frames; every frame has a reference count. The discipline is that the count of a mapped frame
covers the slots that map it, and a slot with write access maps its frame alone. Each operation of a
copy-on-write memory is one update of the map together with a change of the counts.
-/
namespace Sharing

variable {S F E : Type} [DecidableEq F]

/-- How an entry is read. -/
structure View (E F : Type) where
  target : E → F
  writable : E → Bool

section Count
variable (v : View E F) (slots : Finset S) (map : S → Option E)

/-- The number of slots that map `f`. -/
def count (f : F) : Nat := (slots.filter fun x => (map x).map v.target = some f).card

structure Exclusive (ref : F → Nat) : Prop where
  counted : ∀ x ∈ slots, ∀ e, map x = some e → count v slots map (v.target e) ≤ ref (v.target e)
  sole : ∀ x ∈ slots, ∀ y ∈ slots, ∀ e e', map x = some e → map y = some e' →
    v.target e = v.target e' → v.writable e = true → x = y

/-- Every mapped frame has exactly one reference for each slot. -/
def Exact (ref : F → Nat) : Prop :=
  ∀ x ∈ slots, ∀ e, map x = some e → ref (v.target e) = count v slots map (v.target e)

end Count

section Lemmas
variable {v : View E F} {slots : Finset S} {map : S → Option E} {ref ref' : F → Nat} {x y : S} {e e' : E}
  {f : F}

theorem count_pos (hx : x ∈ slots) (he : map x = some e) : 0 < count v slots map (v.target e) :=
  Finset.card_pos.mpr ⟨x, Finset.mem_filter.mpr ⟨hx, by rw [he]; rfl⟩⟩

theorem eq_of_count_le_one (hc : count v slots map f ≤ 1) (hx : x ∈ slots) (hy : y ∈ slots)
    (he : map x = some e) (he' : map y = some e') (hf : v.target e = f) (hf' : v.target e' = f) : x = y :=
  Finset.card_le_one.mp hc x (Finset.mem_filter.mpr ⟨hx, by rw [he, Option.map_some, hf]⟩) y
    (Finset.mem_filter.mpr ⟨hy, by rw [he', Option.map_some, hf']⟩)

theorem Exclusive.mono (h : Exclusive v slots map ref)
    (hle : ∀ x ∈ slots, ∀ e, map x = some e → ref (v.target e) ≤ ref' (v.target e)) :
    Exclusive v slots map ref' :=
  ⟨fun x hx e he => (h.counted x hx e he).trans (hle x hx e he), h.sole⟩

theorem Exact.congr (h : Exact v slots map ref)
    (heq : ∀ x ∈ slots, ∀ e, map x = some e → ref' (v.target e) = ref (v.target e)) :
    Exact v slots map ref' := fun x hx e he => (heq x hx e he).trans (h x hx e he)

section Update
variable [DecidableEq S]

theorem count_update (v : View E F) (map : S → Option E) (hx : x ∈ slots) (o : Option E) (f : F) :
    count v slots (Function.update map x o) f + (if (map x).map v.target = some f then 1 else 0) =
      count v slots map f + (if o.map v.target = some f then 1 else 0) := by
  have hrest : ∑ y ∈ slots.erase x, (if (Function.update map x o y).map v.target = some f then 1 else 0) =
      ∑ y ∈ slots.erase x, (if (map y).map v.target = some f then 1 else 0) :=
    Finset.sum_congr rfl fun y hy => by rw [Function.update_of_ne (Finset.ne_of_mem_erase hy)]
  rw [count, count, Finset.card_filter, Finset.card_filter, ← Finset.add_sum_erase _ _ hx, hrest,
    ← Finset.add_sum_erase slots (fun y => if (map y).map v.target = some f then 1 else 0) hx,
    Function.update_self]
  omega

/-- An entry of the map after an update is the new one or an old one. -/
theorem update_cases {z : S} {o : Option E} {d : E} (h : Function.update map x o z = some d) :
    (z = x ∧ o = some d) ∨ (z ≠ x ∧ map z = some d) := by
  by_cases hz : z = x
  · subst hz
    rw [Function.update_self] at h
    exact .inl ⟨rfl, h⟩
  · rw [Function.update_of_ne hz] at h
    exact .inr ⟨hz, h⟩

/-- A slot is directed to a frame that no slot maps; its reference to the old frame may be dropped. -/
theorem Exclusive.redirect (h : Exclusive v slots map ref) (hx : x ∈ slots)
    (hnew : ∀ y ∈ slots, ∀ d, map y = some d → v.target d ≠ v.target e) (hpos : 1 ≤ ref' (v.target e))
    (hle : ∀ y ∈ slots, ∀ d, map y = some d →
      ref (v.target d) ≤ ref' (v.target d) + if (map x).map v.target = some (v.target d) then 1 else 0) :
    Exclusive v slots (Function.update map x (some e)) ref' := by
  have hzero : count v slots map (v.target e) = 0 := by
    refine Finset.card_eq_zero.mpr (Finset.filter_eq_empty_iff.mpr fun y hy hm => ?_)
    obtain ⟨d, hd, hde⟩ := Option.map_eq_some_iff.mp hm
    exact hnew y hy d hd hde
  constructor
  · intro z hz d hd
    have hc := count_update v map hx (some e) (v.target d)
    rcases update_cases hd with ⟨rfl, hed⟩ | ⟨_, hzd⟩
    · cases hed
      rw [hzero, Option.map_some, if_pos rfl] at hc
      omega
    · have hold := h.counted z hz d hzd
      have hdrop := hle z hz d hzd
      have hne : v.target e ≠ v.target d := (hnew z hz d hzd).symm
      rw [Option.map_some, if_neg (fun he => hne (Option.some.inj he))] at hc
      omega
  · intro a ha b hb d d' hd hd' htarget hw
    rcases update_cases hd with ⟨rfl, hed⟩ | ⟨_, had⟩
    · rcases update_cases hd' with ⟨rfl, _⟩ | ⟨_, hbd⟩
      · rfl
      · cases hed
        exact absurd htarget.symm (hnew b hb d' hbd)
    · rcases update_cases hd' with ⟨rfl, hed⟩ | ⟨_, hbd⟩
      · cases hed
        exact absurd htarget (hnew a ha d had)
      · exact h.sole a ha b hb d d' had hbd htarget hw

theorem count_retarget (hx : x ∈ slots) (he : map x = some e) (ht : v.target e' = v.target e) (f : F) :
    count v slots (Function.update map x (some e')) f = count v slots map f := by
  have hc := count_update v map hx (some e') f
  rw [he, Option.map_some, Option.map_some, ht] at hc
  omega

/-- The only slot of a frame with a single reference gets write access. -/
theorem Exclusive.enable (h : Exclusive v slots map ref) (hx : x ∈ slots) (he : map x = some e)
    (ht : v.target e' = v.target e) (hone : ref (v.target e) = 1) :
    Exclusive v slots (Function.update map x (some e')) ref := by
  have hle : count v slots map (v.target e) ≤ 1 := hone ▸ h.counted x hx e he
  have hsole : ∀ z ∈ slots, ∀ d, map z = some d → v.target d = v.target e → z = x := fun z hz d hd htd =>
    eq_of_count_le_one hle hz hx hd he htd rfl
  constructor
  · intro z hz d hd
    rw [count_retarget hx he ht]
    rcases update_cases hd with ⟨rfl, hed⟩ | ⟨_, hzd⟩
    · cases hed
      rw [ht]
      exact h.counted z hz e he
    · exact h.counted z hz d hzd
  · intro a ha b hb d d' hd hd' htarget hw
    rcases update_cases hd with ⟨rfl, hed⟩ | ⟨hax, had⟩
    · rcases update_cases hd' with ⟨rfl, _⟩ | ⟨_, hbd⟩
      · rfl
      · cases hed
        exact (hsole b hb d' hbd (by rw [← htarget, ht])).symm
    · rcases update_cases hd' with ⟨rfl, hed⟩ | ⟨_, hbd⟩
      · cases hed
        exact hsole a ha d had (by rw [htarget, ht])
      · exact h.sole a ha b hb d d' had hbd htarget hw

/-- A slot loses write access. -/
theorem Exclusive.protect (h : Exclusive v slots map ref) (hx : x ∈ slots) (he : map x = some e)
    (ht : v.target e' = v.target e) (hw : v.writable e' = false) :
    Exclusive v slots (Function.update map x (some e')) ref := by
  constructor
  · intro z hz d hd
    rw [count_retarget hx he ht]
    rcases update_cases hd with ⟨rfl, hed⟩ | ⟨_, hzd⟩
    · cases hed
      rw [ht]
      exact h.counted z hz e he
    · exact h.counted z hz d hzd
  · intro a ha b hb d d' hd hd' htarget hwd
    rcases update_cases hd with ⟨rfl, hed⟩ | ⟨_, had⟩
    · cases hed
      rw [hw] at hwd
      cases hwd
    · rcases update_cases hd' with ⟨rfl, hed⟩ | ⟨_, hbd⟩
      · cases hed
        exact h.sole a ha b hb d e had he (by rw [htarget, ht]) hwd
      · exact h.sole a ha b hb d d' had hbd htarget hwd

/-- Slot `y` joins the write-protected slot `x`, which takes one more reference. -/
theorem Exclusive.share (h : Exclusive v slots map ref) (hx : x ∈ slots) (hy : y ∈ slots)
    (he : map x = some e) (hro : v.writable e = false) (ht : v.target e' = v.target e)
    (hw : v.writable e' = false) (hmore : ref (v.target e) + 1 ≤ ref' (v.target e))
    (hle : ∀ z ∈ slots, ∀ d, map z = some d → ref (v.target d) ≤ ref' (v.target d)) :
    Exclusive v slots (Function.update map y (some e')) ref' := by
  have hnot : ∀ z ∈ slots, ∀ d, map z = some d → v.target d = v.target e → v.writable d = false := by
    intro z hz d hd htd
    cases hwd : v.writable d with
    | false => rfl
    | true =>
        obtain rfl := h.sole z hz x hx d e hd he htd hwd
        rw [he] at hd
        cases hd
        rw [hro] at hwd
        cases hwd
  constructor
  · intro z hz d hd
    have hc := count_update v map hy (some e') (v.target d)
    rw [Option.map_some] at hc
    have hbase := h.counted x hx e he
    rcases update_cases hd with ⟨rfl, hed⟩ | ⟨_, hzd⟩
    · cases hed
      rw [ht] at hc ⊢
      rw [if_pos rfl] at hc
      omega
    · have hold := h.counted z hz d hzd
      have hmono := hle z hz d hzd
      by_cases hde : v.target d = v.target e
      · rw [hde] at hc hold hmono ⊢
        rw [ht, if_pos rfl] at hc
        omega
      · rw [ht, if_neg fun hs => hde (Option.some.inj hs).symm] at hc
        omega
  · intro a ha b hb d d' hd hd' htarget hwd
    rcases update_cases hd with ⟨rfl, hed⟩ | ⟨_, had⟩
    · cases hed
      rw [hw] at hwd
      cases hwd
    · rcases update_cases hd' with ⟨rfl, hed⟩ | ⟨_, hbd⟩
      · cases hed
        rw [hnot a ha d had (htarget.trans ht)] at hwd
        cases hwd
      · exact h.sole a ha b hb d d' had hbd htarget hwd

section Exact

theorem Exact.redirect (h : Exact v slots map ref) (hx : x ∈ slots)
    (hnew : ∀ y ∈ slots, ∀ d, map y = some d → v.target d ≠ v.target e) (hone : ref' (v.target e) = 1)
    (heq : ∀ y ∈ slots, ∀ d, map y = some d →
      ref' (v.target d) + (if (map x).map v.target = some (v.target d) then 1 else 0) = ref (v.target d)) :
    Exact v slots (Function.update map x (some e)) ref' := by
  have hzero : count v slots map (v.target e) = 0 := by
    refine Finset.card_eq_zero.mpr (Finset.filter_eq_empty_iff.mpr fun y hy hm => ?_)
    obtain ⟨d, hd, hde⟩ := Option.map_eq_some_iff.mp hm
    exact hnew y hy d hd hde
  intro z hz d hd
  have hc := count_update v map hx (some e) (v.target d)
  rcases update_cases hd with ⟨rfl, hed⟩ | ⟨_, hzd⟩
  · cases hed
    have hold : (map z).map v.target ≠ some (v.target e) := fun hm => by
      obtain ⟨d, hd, hde⟩ := Option.map_eq_some_iff.mp hm
      exact hnew z hz d hd hde
    rw [hzero, Option.map_some, if_pos rfl, if_neg hold] at hc
    omega
  · have hbefore := h z hz d hzd
    have hdrop := heq z hz d hzd
    have hne : v.target e ≠ v.target d := (hnew z hz d hzd).symm
    rw [Option.map_some, if_neg (fun he => hne (Option.some.inj he))] at hc
    omega

theorem Exact.retarget (h : Exact v slots map ref) (hx : x ∈ slots) (he : map x = some e)
    (ht : v.target e' = v.target e) : Exact v slots (Function.update map x (some e')) ref := by
  intro z hz d hd
  rw [count_retarget hx he ht]
  rcases update_cases hd with ⟨rfl, hed⟩ | ⟨_, hzd⟩
  · cases hed
    rw [ht]
    exact h z hz e he
  · exact h z hz d hzd

theorem Exact.share (h : Exact v slots map ref) (hx : x ∈ slots) (hy : y ∈ slots) (he : map x = some e)
    (hnone : map y = none) (ht : v.target e' = v.target e)
    (hmore : ref' (v.target e) = ref (v.target e) + 1)
    (heq : ∀ z ∈ slots, ∀ d, map z = some d → v.target d ≠ v.target e → ref' (v.target d) = ref (v.target d)) :
    Exact v slots (Function.update map y (some e')) ref' := by
  intro z hz d hd
  have hc := count_update v map hy (some e') (v.target d)
  rw [hnone, Option.map_some, Option.map_none, if_neg (by simp), Nat.add_zero] at hc
  have hbase := h x hx e he
  by_cases hde : v.target d = v.target e
  · rw [hde, ht, if_pos rfl] at hc
    rw [hde]
    omega
  · rw [ht, if_neg fun hs => hde (Option.some.inj hs).symm] at hc
    rcases update_cases hd with ⟨rfl, hed⟩ | ⟨_, hzd⟩
    · cases hed
      exact absurd ht hde
    · have hold := h z hz d hzd
      have hsame := heq z hz d hzd hde
      omega

end Exact

end Update

end Lemmas

section Moves
variable [DecidableEq S] (v : View E F) (slots : Finset S)

/-- What a copy-on-write memory does to its map and its counts: counts of frames that no slot maps change, a slot is
directed to a new frame, the only slot of a frame gets write access, or slot `y` joins slot `x`. With `once` the
slot that joins maps nothing before. -/
inductive Move (once : Prop) : (S → Option E) × (F → Nat) → (S → Option E) × (F → Nat) → Prop
  | recount {map : S → Option E} {ref ref' : F → Nat} :
      (∀ x ∈ slots, ∀ e, map x = some e → ref' (v.target e) = ref (v.target e)) → Move once (map, ref) (map, ref')
  | direct {map : S → Option E} {ref ref' : F → Nat} {x : S} {e : E} : x ∈ slots →
      (∀ y ∈ slots, ∀ d, map y = some d → v.target d ≠ v.target e) → ref' (v.target e) = 1 →
      (∀ y ∈ slots, ∀ d, map y = some d →
        ref' (v.target d) + (if (map x).map v.target = some (v.target d) then 1 else 0) = ref (v.target d)) →
      Move once (map, ref) (Function.update map x (some e), ref')
  | enable {map : S → Option E} {ref : F → Nat} {x : S} {e e' : E} : x ∈ slots → map x = some e →
      v.target e' = v.target e → ref (v.target e) = 1 →
      Move once (map, ref) (Function.update map x (some e'), ref)
  | share {map : S → Option E} {ref ref' : F → Nat} {x y : S} {e e' : E} : x ∈ slots → y ∈ slots → x ≠ y →
      map x = some e → v.target e' = v.target e → v.writable e' = false → (once → map y = none) →
      ref' (v.target e) = ref (v.target e) + 1 →
      (∀ z ∈ slots, ∀ d, map z = some d → v.target d ≠ v.target e → ref' (v.target d) = ref (v.target d)) →
      Move once (map, ref) (Function.update (Function.update map x (some e')) y (some e'), ref')

/-- Any number of moves. -/
abbrev Moves (once : Prop) : (S → Option E) × (F → Nat) → (S → Option E) × (F → Nat) → Prop :=
  Relation.ReflTransGen (Move v slots once)

variable {v : View E F} {slots : Finset S} {once : Prop} {a b : (S → Option E) × (F → Nat)}

theorem Exclusive.move (h : Exclusive v slots a.1 a.2) (hm : Move v slots once a b) : Exclusive v slots b.1 b.2 := by
  cases hm with
  | recount heq => exact h.mono fun x hx e he => (heq x hx e he).ge
  | direct hx hnew hone heq => exact h.redirect hx hnew hone.ge fun y hy d hd => (heq y hy d hd).ge
  | enable hx he ht hone => exact h.enable hx he ht hone
  | @share map ref ref' x y e e' hx hy _ he ht hro _ hmore hrest =>
      have hprotect := h.protect hx he ht hro
      refine hprotect.share hx hy (Function.update_self ..) hro rfl hro (by rw [ht]; exact hmore.ge) fun z hz d hd => ?_
      have hsome : ∃ c, map z = some c ∧ v.target c = v.target d := by
        rcases update_cases hd with ⟨rfl, hed⟩ | ⟨_, hzd⟩
        · cases hed
          exact ⟨e, he, ht.symm⟩
        · exact ⟨d, hzd, rfl⟩
      obtain ⟨c, hc, hcd⟩ := hsome
      rw [← hcd]
      by_cases hce : v.target c = v.target e
      · rw [hce]
        exact (Nat.le_succ _).trans hmore.ge
      · exact (hrest z hz c hc hce).ge

theorem Exclusive.moves (h : Exclusive v slots a.1 a.2) (hm : Moves v slots once a b) :
    Exclusive v slots b.1 b.2 := by
  induction hm with
  | refl => exact h
  | tail _ hmove ih => exact ih.move hmove

theorem Exact.move (h : Exact v slots a.1 a.2) (honce : once) (hm : Move v slots once a b) : Exact v slots b.1 b.2 := by
  cases hm with
  | recount heq => exact h.congr heq
  | direct hx hnew hone heq => exact h.redirect hx hnew hone heq
  | enable hx he ht _ => exact h.retarget hx he ht
  | @share map ref ref' x y e e' hx hy hxy he ht _ hfree hmore hrest =>
      have hretarget := h.retarget hx he ht
      have hnone : Function.update map x (some e') y = none := by
        rw [Function.update_of_ne (Ne.symm hxy)]
        exact hfree honce
      refine hretarget.share hx hy (Function.update_self ..) hnone rfl (by rw [ht]; exact hmore) fun z hz d hd hde => ?_
      rcases update_cases hd with ⟨rfl, hed⟩ | ⟨_, hzd⟩
      · cases hed
        exact absurd rfl hde
      · exact hrest z hz d hzd (ht ▸ hde)

theorem Exact.moves (h : Exact v slots a.1 a.2) (honce : once) (hm : Moves v slots once a b) :
    Exact v slots b.1 b.2 := by
  induction hm with
  | refl => exact h
  | tail _ hmove ih => exact ih.move honce hmove

end Moves

end Sharing
