import ZjuOs.Sharing

/-!
# Private memories

Owners have memories of their own, made of pages. A page is entered where there was none, a page is written, or the
pages of one owner are copied to another one that has none. A memory in which frames are shared copy-on-write looks
to its slots like that, because a slot with write access maps its frame alone.
-/
namespace Sharing

variable {T P D : Type}

/-- The pages of every owner. -/
abbrev Memories (T P D : Type) : Type := T × P → Option D

inductive Effect (T P D : Type)
  | keep
  | enter (i : T) (n : P) (d : D)
  | write (i : T) (n : P) (f : D → D)
  | clone (i j : T) (ns : List P)

section Effect
variable [DecidableEq T] [DecidableEq P] {m m' m'' : Memories T P D} {e : Effect T P D} {x : T × P} {d : D}

def Effect.apply (m : Memories T P D) : Effect T P D → Memories T P D
  | keep => m
  | enter i n d => Function.update m (i, n) (some d)
  | write i n f => Function.update m (i, n) ((m (i, n)).map f)
  | clone i j ns => fun x => if x.1 = j ∧ x.2 ∈ ns then m (i, x.2) else m x

def Effect.Allowed (m : Memories T P D) : Effect T P D → Prop
  | keep => True
  | enter i n _ => m (i, n) = none
  | write i n _ => m (i, n) ≠ none
  | clone i j _ => i ≠ j ∧ ∀ n, m (j, n) = none

/-- What the effect writes in the page `x`. -/
def Effect.writes (x : T × P) : Effect T P D → D → D
  | write i n f => if (i, n) = x then f else id
  | _ => id

/-- A page changes by what is written in it. -/
theorem Effect.apply_some (h : e.Allowed m) (hx : m x = some d) : e.apply m x = some (e.writes x d) := by
  cases e with
  | keep => exact hx
  | enter i n c =>
      have hne : x ≠ (i, n) := by
        intro he
        rw [he, show m (i, n) = none from h] at hx
        cases hx
      rw [apply, Function.update_of_ne hne]
      exact hx
  | write i n f =>
      rw [apply, writes]
      by_cases he : (i, n) = x
      · rw [he, Function.update_self, if_pos rfl, hx, Option.map_some]
      · rw [Function.update_of_ne (Ne.symm he), if_neg he, hx, id]
  | clone i j ns =>
      have hne : ¬ (x.1 = j ∧ x.2 ∈ ns) := by
        rintro ⟨hj, -⟩
        have hnone := h.2 x.2
        rw [← hj, Prod.mk.eta, hx] at hnone
        cases hnone
      exact (if_neg hne).trans hx

/-- The memories after a number of allowed effects. -/
inductive History (m : Memories T P D) : List (Effect T P D) → Memories T P D → Prop
  | nil : History m [] m
  | snoc {es : List (Effect T P D)} {m' : Memories T P D} {e : Effect T P D} : History m es m' → e.Allowed m' →
      History m (es ++ [e]) (e.apply m')

/-- A page at the end of a history is the page at its start with the writes to it, in their order. -/
theorem History.own_writes {es : List (Effect T P D)} (h : History m es m') (hx : m x = some d) :
    m' x = some (es.foldl (fun c e => e.writes x c) d) := by
  induction h with
  | nil => exact hx
  | snoc _ hallowed ih =>
      rw [List.foldl_append, List.foldl_cons, List.foldl_nil]
      exact Effect.apply_some hallowed ih

end Effect

section Seen
variable {S E F : Type} {v : View E F} {map map' : S → Option E} {data data' : F → D} {x : S} {e : E}

/-- What a slot sees: the contents of the frame that it maps. -/
def seen (v : View E F) (map : S → Option E) (data : F → D) (x : S) : Option D :=
  (map x).map fun e => data (v.target e)

theorem seen_some (h : map x = some e) : seen v map data x = some (data (v.target e)) := by
  rw [seen, h, Option.map_some]

theorem seen_none : seen v map data x = none ↔ map x = none := Option.map_eq_none_iff

/-- The same is seen through other frames with the same contents. -/
theorem seen_congr (h : (map' x).map (fun e => data' (v.target e)) = (map x).map fun e => data (v.target e)) :
    seen v map' data' x = seen v map data x := h

/-- The contents of the frames that are mapped have not changed. -/
theorem seen_data (h : ∀ e, map x = some e → data' (v.target e) = data (v.target e)) :
    seen v map data' x = seen v map data x := by
  refine seen_congr ?_
  cases hx : map x with
  | none => rfl
  | some e => rw [Option.map_some, Option.map_some, h e hx]

variable [DecidableEq S] [DecidableEq F] {slots : Finset S} {ref : F → Nat} {f : D → D}

/-- A write through a slot with write access is seen in that slot only. -/
theorem Exclusive.seen_write (h : Exclusive v slots map ref) (hin : ∀ y d, map y = some d → y ∈ slots) (hx : map x = some e)
    (hw : v.writable e = true) :
    seen v map (Function.update data (v.target e) (f (data (v.target e)))) =
      Function.update (seen v map data) x ((seen v map data x).map f) := by
  funext y
  by_cases hy : y = x
  · rw [hy, Function.update_self, seen_some hx, seen_some hx, Function.update_self, Option.map_some]
  · rw [Function.update_of_ne hy]
    refine seen_data fun d hd => Function.update_of_ne (fun ht => hy ?_) ..
    exact (h.sole x (hin x e hx) y (hin y d hd) e d hx hd ht.symm hw).symm

end Seen

end Sharing
