import Mathlib.Algebra.Group.Nat.Defs
import Mathlib.Logic.Function.Basic
import Mathlib.Tactic.Common

/-!
# Radix tables

A heap of tables, each a row of entries; a valid entry of an inner table names the next table. A lookup
follows a path of indices from a root and reads a leaf entry. Every table has at most one owner, a root
and the path to it, so different paths never meet and a store to a leaf changes one lookup only.
-/
namespace Radix

variable {F I E : Type}

/-- How entries are read. -/
structure Format (F E : Type) where
  valid : E → Bool
  target : E → F

section Definitions
variable (fmt : Format F E) (H : F → I → E)

/-- The table at the end of a path. -/
def descend : F → List I → Option F
  | f, [] => some f
  | f, j :: q => if fmt.valid (H f j) then descend (fmt.target (H f j)) q else none

/-- The leaf entry `i` of the table at the end of a path, if all entries on the way are valid. -/
def lookup : F → List I → I → Option E
  | f, [], i => if fmt.valid (H f i) then some (H f i) else none
  | f, j :: q, i => if fmt.valid (H f j) then lookup (fmt.target (H f j)) q i else none

def set [DecidableEq F] [DecidableEq I] (H : F → I → E) (f : F) (i : I) (e : E) : F → I → E :=
  Function.update H f (Function.update (H f) i e)

/-- Inner entries that count: `dom p i` for entry `i` of a table with path `p`. -/
structure Owned (depth : Nat) (dom : List I → I → Prop) (own : F → Option (F × List I)) : Prop where
  next : ∀ f r p i, own f = some (r, p) → p.length < depth → dom p i → fmt.valid (H f i) = true →
    own (fmt.target (H f i)) = some (r, p ++ [i])

/-- Every step of `q` counts after `p`. -/
def Allowed (dom : List I → I → Prop) : List I → List I → Prop
  | _, [] => True
  | p, j :: q => dom p j ∧ Allowed dom (p ++ [j]) q

end Definitions

section Store
variable [DecidableEq F] [DecidableEq I] {H : F → I → E} {f g : F} {i j : I} {e : E}

@[simp] theorem set_self : set H f i e f i = e := by simp [set]

theorem set_of_ne (h : g ≠ f ∨ j ≠ i) : set H f i e g j = H g j := by
  by_cases hg : g = f
  · subst hg
    rw [set, Function.update_self, Function.update_of_ne (h.resolve_left (not_not.mpr rfl))]
  · rw [set, Function.update_of_ne hg]

theorem set_of_ne_table (h : g ≠ f) : set H f i e g = H g := Function.update_of_ne h _ _

end Store

section Lookup
variable {fmt : Format F E} {H H' : F → I → E} {depth : Nat} {dom : List I → I → Prop}
  {own : F → Option (F × List I)} {f g r : F} {p q : List I} {i : I} {e : E}

theorem lookup_eq_descend (f : F) (q : List I) (i : I) :
    lookup fmt H f q i = (descend fmt H f q).bind fun g => if fmt.valid (H g i) then some (H g i) else none := by
  induction q generalizing f with
  | nil => rfl
  | cons j q ih =>
      rw [lookup, descend]
      split
      · exact ih _
      · rfl

theorem allowed_concat (hq : Allowed dom p q) (hi : dom (p ++ q) i) : Allowed dom p (q ++ [i]) := by
  induction q generalizing p with
  | nil =>
      rw [List.append_nil] at hi
      exact ⟨hi, trivial⟩
  | cons j q ih =>
      refine ⟨hq.1, ih hq.2 ?_⟩
      rwa [List.append_assoc]

theorem Owned.descend (h : Owned fmt H depth dom own) (hf : own f = some (r, p))
    (hlen : p.length + q.length ≤ depth) (hq : Allowed dom p q) (hg : descend fmt H f q = some g) :
    own g = some (r, p ++ q) := by
  induction q generalizing f p with
  | nil =>
      cases hg
      rw [hf, List.append_nil]
  | cons j q ih =>
      rw [List.length_cons] at hlen
      rw [Radix.descend] at hg
      split at hg
      · next hv =>
          have hnext := h.next f r p j hf (by omega) hq.1 hv
          have := ih hnext (by simp only [List.length_append, List.length_singleton]; omega) hq.2 hg
          rwa [List.append_assoc] at this
      · cases hg

/-- The same inner tables lead to the same places. -/
theorem Owned.descend_congr (h : Owned fmt H depth dom own) (hf : own f = some (r, p))
    (hlen : p.length + q.length ≤ depth) (hq : Allowed dom p q)
    (hsame : ∀ x r' p', own x = some (r', p') → p'.length < depth → H' x = H x) :
    Radix.descend fmt H' f q = Radix.descend fmt H f q := by
  induction q generalizing f p with
  | nil => rfl
  | cons j q ih =>
      rw [List.length_cons] at hlen
      rw [Radix.descend, Radix.descend, hsame f r p hf (by omega)]
      split
      · next hv =>
          exact ih (h.next f r p j hf (by omega) hq.1 hv)
            (by simp only [List.length_append, List.length_singleton]; omega) hq.2
      · rfl

theorem lookup_of_empty (hy : ∀ i, fmt.valid (H f i) = false) : lookup fmt H f q i = none := by
  cases q with
  | nil => rw [lookup, hy]; rfl
  | cons j q => rw [lookup, hy]; rfl

theorem descend_append (f : F) (q q' : List I) :
    Radix.descend fmt H f (q ++ q') = (Radix.descend fmt H f q).bind fun g => Radix.descend fmt H g q' := by
  induction q generalizing f with
  | nil => rfl
  | cons j q ih =>
      rw [List.cons_append, Radix.descend, Radix.descend]
      split
      · exact ih _
      · rfl

section LeafStore
variable [DecidableEq F] [DecidableEq I] {l : F} {b : List I} {k : I} {a : F}

theorem Owned.set_leaf (h : Owned fmt H depth dom own) (hl : own l = some (a, b)) (hb : b.length = depth) :
    Owned fmt (set H l k e) depth dom own := by
  refine ⟨fun f r p i hf hp hd hv => ?_⟩
  have hne : f ≠ l := by
    rintro rfl
    rw [hl] at hf
    cases hf
    omega
  rw [set_of_ne_table hne] at hv ⊢
  exact h.next f r p i hf hp hd hv

theorem Owned.descend_set_leaf (h : Owned fmt H depth dom own) (hl : own l = some (a, b))
    (hb : b.length = depth) (hf : own f = some (r, p)) (hlen : p.length + q.length ≤ depth)
    (hq : Allowed dom p q) : Radix.descend fmt (set H l k e) f q = Radix.descend fmt H f q := by
  refine h.descend_congr hf hlen hq fun x r' p' hx hp' => set_of_ne_table ?_
  rintro rfl
  rw [hl] at hx
  cases hx
  omega

/-- A store to a leaf changes the lookup that ends there. -/
theorem Owned.lookup_set_leaf (h : Owned fmt H depth dom own) (hl : own l = some (a, b))
    (hb : b.length = depth) (hf : own f = some (r, p)) (hlen : p.length + q.length = depth)
    (hq : Allowed dom p q) (hi : (r, p ++ q, i) ≠ (a, b, k)) :
    lookup fmt (set H l k e) f q i = lookup fmt H f q i := by
  rw [lookup_eq_descend, lookup_eq_descend, h.descend_set_leaf hl hb hf (Nat.le_of_eq hlen) hq]
  cases hd : Radix.descend fmt H f q with
  | none => rfl
  | some g =>
      have hg := h.descend hf (Nat.le_of_eq hlen) hq hd
      have hne : g ≠ l ∨ i ≠ k := by
        by_contra hno
        obtain ⟨rfl, rfl⟩ : g = l ∧ i = k := by
          constructor
          · by_contra hgl; exact hno (.inl hgl)
          · by_contra hik; exact hno (.inr hik)
        rw [hl] at hg
        cases hg
        exact hi rfl
      simp only [Option.bind_some, set_of_ne hne]

theorem Owned.lookup_set_leaf_self (h : Owned fmt H depth dom own) (hl : own l = some (a, b))
    (hb : b.length = depth) (ha : own a = some (a, [])) (hq : Allowed dom [] b)
    (hd : Radix.descend fmt H a b = some l) :
    lookup fmt (set H l k e) a b k = if fmt.valid e then some e else none := by
  rw [lookup_eq_descend, h.descend_set_leaf hl hb ha (by simp [hb]) hq, hd, Option.bind_some, set_self]

end LeafStore

section Extend
variable [DecidableEq F] [DecidableEq I] {x y : F} {b : List I} {k : I} {a : F}

/-- Table `y`, empty and without an owner, is entered at entry `k` of `x`. -/
structure Extends (fmt : Format F E) (H : F → I → E) (own : F → Option (F × List I)) (x : F) (k : I)
    (e : E) (y : F) : Prop where
  invalid : fmt.valid (H x k) = false
  fresh : own y = none
  empty : ∀ i, fmt.valid (H y i) = false
  valid : fmt.valid e = true
  target : fmt.target e = y

theorem Owned.extend (h : Owned fmt H depth dom own) (hx : own x = some (a, b)) (he : Extends fmt H own x k e y)
    : Owned fmt (set H x k e) depth dom (Function.update own y (some (a, b ++ [k]))) := by
  have hxy : x ≠ y := by
    rintro rfl
    rw [he.fresh] at hx
    cases hx
  refine ⟨fun f r p i hf hp hd hv => ?_⟩
  by_cases hfy : f = y
  · subst hfy
    rw [set_of_ne_table hxy.symm, he.empty] at hv
    cases hv
  · rw [Function.update_of_ne hfy] at hf
    by_cases hslot : f = x ∧ i = k
    · obtain ⟨rfl, rfl⟩ := hslot
      rw [hx] at hf
      cases hf
      rw [set_self, he.target, Function.update_self]
    · have hne : f ≠ x ∨ i ≠ k := by
        by_cases hfx : f = x
        · exact .inr fun hik => hslot ⟨hfx, hik⟩
        · exact .inl hfx
      rw [set_of_ne hne] at hv ⊢
      have hnext := h.next f r p i hf hp hd hv
      rw [Function.update_of_ne, hnext]
      rintro hy
      rw [hy, he.fresh] at hnext
      cases hnext

/-- An extension adds no leaf. -/
theorem Owned.lookup_extend (h : Owned fmt H depth dom own) (hx : own x = some (a, b))
    (hb : b.length < depth) (he : Extends fmt H own x k e y) (hf : own f = some (r, p))
    (hlen : p.length + q.length = depth) (hq : Allowed dom p q) :
    lookup fmt (set H x k e) f q i = lookup fmt H f q i := by
  have hxy : y ≠ x := by
    rintro rfl
    rw [he.fresh] at hx
    cases hx
  induction q generalizing f p with
  | nil =>
      have hne : f ≠ x := by
        rintro rfl
        rw [hx] at hf
        cases hf
        simp only [List.length_nil, Nat.add_zero] at hlen
        omega
      rw [lookup, lookup, set_of_ne_table hne]
  | cons j q ih =>
      rw [List.length_cons] at hlen
      by_cases hslot : f = x ∧ j = k
      · obtain ⟨rfl, rfl⟩ := hslot
        have hempty : ∀ i, fmt.valid (set H f j e y i) = false := fun i => by
          rw [set_of_ne_table hxy]
          exact he.empty i
        rw [lookup, lookup, set_self, he.valid, he.invalid, he.target, lookup_of_empty hempty]
        rfl
      · have hne : f ≠ x ∨ j ≠ k := by
          by_cases hfx : f = x
          · exact .inr fun hjk => hslot ⟨hfx, hjk⟩
          · exact .inl hfx
        rw [lookup, lookup, set_of_ne hne]
        split
        · next hv =>
            exact ih (h.next f r p j hf (by omega) hq.1 hv)
              (by simp only [List.length_append, List.length_singleton]; omega) hq.2
        · rfl

/-- An extension makes one path. -/
theorem Owned.descend_extend_none (h : Owned fmt H depth dom own) (hx : own x = some (a, b))
    (he : Extends fmt H own x k e y) (hf : own f = some (r, p)) (hlen : p.length + q.length ≤ depth) (hq : Allowed dom p q)
    (hnew : ¬ (r = a ∧ p ++ q = b ++ [k])) (hd : Radix.descend fmt H f q = none) :
    Radix.descend fmt (set H x k e) f q = none := by
  have hyx : y ≠ x := by
    rintro rfl
    rw [he.fresh] at hx
    cases hx
  induction q generalizing f p with
  | nil => cases hd
  | cons j q ih =>
      rw [List.length_cons] at hlen
      rw [Radix.descend] at hd ⊢
      by_cases hslot : f = x ∧ j = k
      · obtain ⟨rfl, rfl⟩ := hslot
        rw [hx] at hf
        cases hf
        cases q with
        | nil => exact absurd ⟨rfl, rfl⟩ hnew
        | cons i q =>
            rw [set_self, if_pos he.valid, he.target, Radix.descend, set_of_ne_table hyx, he.empty]
            rfl
      · have hne : f ≠ x ∨ j ≠ k := by
          by_cases hfx : f = x
          · exact .inr fun hjk => hslot ⟨hfx, hjk⟩
          · exact .inl hfx
        rw [set_of_ne hne]
        split
        · next hv =>
            rw [if_pos hv] at hd
            exact ih (h.next f r p j hf (by omega) hq.1 hv)
              (by simp only [List.length_append, List.length_singleton]; omega) hq.2
              (by rwa [List.append_assoc]) hd
        · rfl

/-- A path that exists is kept by an extension. -/
theorem descend_extend (he : fmt.valid (H x k) = false) (hd : Radix.descend fmt H f q = some g) :
    Radix.descend fmt (set H x k e) f q = some g := by
  induction q generalizing f with
  | nil => exact hd
  | cons j q ih =>
      rw [Radix.descend] at hd ⊢
      split at hd
      · next hv =>
          have hne : f ≠ x ∨ j ≠ k := by
            by_contra hno
            obtain ⟨rfl, rfl⟩ : f = x ∧ j = k := by
              constructor
              · by_contra hfx; exact hno (.inl hfx)
              · by_contra hjk; exact hno (.inr hjk)
            rw [he] at hv
            cases hv
          rw [set_of_ne hne, if_pos hv]
          exact ih hd
      · cases hd

end Extend

end Lookup

end Radix
