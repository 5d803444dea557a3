import Mathlib

/-!
# Maps from intervals

A search tree whose keys are intervals, ordered by their starts and then by their ends. The tree is
kept as the list of its entries in this order, which is a field of the structure, so what a search
finds does not depend on how the tree is balanced.

* `find_insert`, `find_insert_of_ne` — the value of an interval after an insertion.
-/

/-- An interval, by its two ends. -/
structure Extent (T : Type) where
  first : T
  last : T
  deriving DecidableEq, Repr

namespace Extent

variable {T : Type} [LinearOrder T]

/-- The order of the entries. -/
def Before (a b : Extent T) : Prop := a.first < b.first ∨ a.first = b.first ∧ a.last < b.last

instance (a b : Extent T) : Decidable (a.Before b) :=
  inferInstanceAs (Decidable (_ ∨ _))

theorem Before.trans {a b c : Extent T} (hab : a.Before b) (hbc : b.Before c) : a.Before c := by
  rcases hab with hab | ⟨hab, hab'⟩
  · rcases hbc with hbc | ⟨hbc, -⟩
    · exact .inl (lt_trans hab hbc)
    · exact .inl (hbc ▸ hab)
  · rcases hbc with hbc | ⟨hbc, hbc'⟩
    · exact .inl (hab ▸ hbc)
    · exact .inr ⟨hab.trans hbc, lt_trans hab' hbc'⟩

theorem before_of_not {a b : Extent T} (hne : a ≠ b) (h : ¬ a.Before b) : b.Before a := by
  obtain ⟨a₁, a₂⟩ := a
  obtain ⟨b₁, b₂⟩ := b
  rw [Before, not_or] at h
  rcases lt_trichotomy b₁ a₁ with hlt | rfl | hlt
  · exact .inl hlt
  · rcases lt_trichotomy b₂ a₂ with hlt | rfl | hlt
    · exact .inr ⟨rfl, hlt⟩
    · exact absurd rfl hne
    · exact absurd ⟨rfl, hlt⟩ h.2
  · exact absurd hlt h.1

end Extent

/-- Is it an interval? Whether a single point is one is up to the map. -/
def Extent.Valid {T : Type} [LinearOrder T] (points : Bool) (k : Extent T) : Prop :=
  if points then k.first ≤ k.last else k.first < k.last

instance {T : Type} [LinearOrder T] (points : Bool) (k : Extent T) : Decidable (k.Valid points) :=
  inferInstanceAs (Decidable (if points = true then k.first ≤ k.last else k.first < k.last))

/-- A map from intervals to values. -/
structure IntervalMap (points : Bool) (T V : Type) [LinearOrder T] where
  entries : List (Extent T × V)
  sorted : entries.Pairwise fun a b => a.1.Before b.1

namespace IntervalMap

variable {T V : Type} [LinearOrder T] {points : Bool}

def empty : IntervalMap points T V := ⟨[], .nil⟩

/-- Put an entry in its place. -/
def upsert (k : Extent T) (v : V) : List (Extent T × V) → List (Extent T × V)
  | [] => [(k, v)]
  | e :: rest =>
    if k = e.1 then (k, v) :: rest
    else if k.Before e.1 then (k, v) :: e :: rest
    else e :: upsert k v rest

theorem mem_upsert {k : Extent T} {v : V} {es : List (Extent T × V)} {e : Extent T × V}
    (h : e ∈ upsert k v es) : e = (k, v) ∨ e ∈ es := by
  induction es with
  | nil => exact .inl (List.mem_singleton.mp h)
  | cons d rest ih =>
    rw [upsert] at h
    split_ifs at h
    · rcases List.mem_cons.mp h with h | h
      · exact .inl h
      · exact .inr (List.mem_cons_of_mem d h)
    · rcases List.mem_cons.mp h with h | h
      · exact .inl h
      · exact .inr h
    · rcases List.mem_cons.mp h with rfl | h
      · exact .inr List.mem_cons_self
      · exact (ih h).imp id (List.mem_cons_of_mem d)

theorem sorted_upsert {k : Extent T} {v : V} {es : List (Extent T × V)}
    (h : es.Pairwise fun a b => a.1.Before b.1) :
    (upsert k v es).Pairwise fun a b => a.1.Before b.1 := by
  induction es with
  | nil => exact List.pairwise_singleton _ _
  | cons e rest ih =>
    obtain ⟨he, hrest⟩ := List.pairwise_cons.mp h
    rw [upsert]
    split_ifs with heq hlt
    · exact List.pairwise_cons.mpr ⟨fun d hd => heq ▸ he d hd, hrest⟩
    · refine List.pairwise_cons.mpr ⟨fun d hd => ?_, h⟩
      rcases List.mem_cons.mp hd with rfl | hd
      · exact hlt
      · exact hlt.trans (he d hd)
    · refine List.pairwise_cons.mpr ⟨fun d hd => ?_, ih hrest⟩
      rcases mem_upsert hd with rfl | hd
      · exact Extent.before_of_not heq hlt
      · exact he d hd

/-- An interval gets a value; one that is not valid is refused. -/
def insert (k : Extent T) (v : V) (m : IntervalMap points T V) : IntervalMap points T V :=
  if k.Valid points then ⟨upsert k v m.entries, sorted_upsert m.sorted⟩ else m

def find (m : IntervalMap points T V) (k : Extent T) : Option V :=
  (m.entries.find? fun e => e.1 = k).map Prod.snd

theorem find?_upsert_self (k : Extent T) (v : V) (es : List (Extent T × V)) :
    (upsert k v es).find? (fun e => e.1 = k) = some (k, v) := by
  induction es with
  | nil => rw [upsert, List.find?_cons_of_pos (by exact decide_eq_true rfl)]
  | cons e rest ih =>
    rw [upsert]
    split_ifs with heq hlt
    · exact List.find?_cons_of_pos (decide_eq_true rfl)
    · exact List.find?_cons_of_pos (decide_eq_true rfl)
    · rw [List.find?_cons_of_neg (fun h => heq (of_decide_eq_true h).symm), ih]

theorem find?_upsert_of_ne {k k' : Extent T} (hne : k' ≠ k) (v : V)
    (es : List (Extent T × V)) :
    (upsert k v es).find? (fun e => e.1 = k') = es.find? (fun e => e.1 = k') := by
  have hk : ∀ l : List (Extent T × V), ((k, v) :: l).find? (fun e => e.1 = k') =
      l.find? (fun e => e.1 = k') := fun l =>
    List.find?_cons_of_neg fun h => hne (of_decide_eq_true h).symm
  induction es with
  | nil => exact hk []
  | cons e rest ih =>
    rw [upsert]
    split_ifs with heq hlt
    · rw [hk, List.find?_cons_of_neg fun h => hne ((of_decide_eq_true h).symm.trans heq.symm)]
    · exact hk (e :: rest)
    · rw [List.find?_cons, List.find?_cons, ih]

theorem find_insert {k : Extent T} (v : V) {m : IntervalMap points T V} (h : k.Valid points) :
    (m.insert k v).find k = some v := by
  rw [insert, if_pos h, find, find?_upsert_self, Option.map_some]

theorem find_insert_of_ne {k k' : Extent T} (hne : k' ≠ k) (v : V) (m : IntervalMap points T V) :
    (m.insert k v).find k' = m.find k' := by
  rw [insert]
  split
  · rw [find, find, find?_upsert_of_ne hne]
  · rfl

theorem insert_of_not_valid {k : Extent T} (v : V) {m : IntervalMap points T V} (h : ¬ k.Valid points) :
    m.insert k v = m := if_neg h

end IntervalMap
