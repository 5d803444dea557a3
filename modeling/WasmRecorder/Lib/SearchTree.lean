import Mathlib

/-!
# Paged search trees

A search tree laid out in pages: a leaf page holds entries, a branch page holds separators and,
one more of them, pointers to child pages. A page is got at through a partial function `fetch`,
so the same tree can be read from different stores.

* `lookup_sound` — the descent finds nothing that is not there.
* `lookup_iff_separated` — the descent finds everything that is there exactly if the separators
  separate.
-/

namespace SearchTree

variable {P K V : Type}

inductive Node (P K V : Type) where
  | leaf (entries : List (K × V))
  | branch (keys : List K) (children : List P)
  deriving DecidableEq, Repr

/-- The entries below a page, for trees of at most the given number of levels. -/
def entries (fetch : P → Option (Node P K V)) : Nat → P → Option (List (K × V))
  | 0, _ => none
  | d + 1, p =>
    match fetch p with
    | none => none
    | some (.leaf es) => some es
    | some (.branch _ cs) => (cs.mapM (entries fetch d)).map List.flatten

/-- The pages below a page, itself first, in the order of a walk. -/
def visited (fetch : P → Option (Node P K V)) : Nat → P → Option (List P)
  | 0, _ => none
  | d + 1, p =>
    match fetch p with
    | none => none
    | some (.leaf _) => some [p]
    | some (.branch _ cs) => (cs.mapM (visited fetch d)).map fun vs => p :: vs.flatten

section Unfold

variable {fetch : P → Option (Node P K V)} {p : P} {es : List (K × V)} {keys : List K} {cs : List P}

theorem entries_leaf (h : fetch p = some (.leaf es)) (d : Nat) :
    entries fetch (d + 1) p = some es := by
  rw [entries, h]

theorem entries_branch (h : fetch p = some (.branch keys cs)) (d : Nat) :
    entries fetch (d + 1) p = (cs.mapM (entries fetch d)).map List.flatten := by
  rw [entries, h]

theorem fetch_of_entries {d : Nat} (h : entries fetch d p = some es) :
    ∃ node, fetch p = some node := by
  cases d with
  | zero => cases h
  | succ d =>
    rw [entries] at h
    cases hp : fetch p with
    | none => rw [hp] at h; cases h
    | some node => exact ⟨node, rfl⟩

theorem visited_leaf (h : fetch p = some (.leaf es)) (d : Nat) :
    visited fetch (d + 1) p = some [p] := by
  rw [visited, h]

theorem visited_branch (h : fetch p = some (.branch keys cs)) (d : Nat) :
    visited fetch (d + 1) p = (cs.mapM (visited fetch d)).map fun vs => p :: vs.flatten := by
  rw [visited, h]

end Unfold

section Mono

theorem mapM_eq_some_iff {α β : Type} {f : α → Option β} {l : List α} {r : List β} :
    l.mapM f = some r ↔ List.Forall₂ (fun a b => f a = some b) l r := by
  induction l generalizing r with
  | nil =>
    rw [List.mapM_nil, List.forall₂_nil_left_iff]
    exact ⟨fun h => (Option.some.inj h).symm, fun h => by rw [h]; rfl⟩
  | cons a l ih =>
    rw [List.mapM_cons, List.forall₂_cons_left_iff]
    constructor
    · intro h
      obtain ⟨b, hb, h⟩ := Option.bind_eq_some_iff.mp h
      obtain ⟨bs, hbs, h⟩ := Option.bind_eq_some_iff.mp h
      cases h
      exact ⟨b, bs, hb, ih.mp hbs, rfl⟩
    · rintro ⟨b, bs, hb, hbs, rfl⟩
      rw [hb, ih.mpr hbs]
      rfl

variable {fetch fetch' : P → Option (Node P K V)}
  (hfetch : ∀ p n, fetch p = some n → fetch' p = some n)

include hfetch

theorem entries_mono {d d' : Nat} (hd : d ≤ d') {p : P} {es : List (K × V)}
    (h : entries fetch d p = some es) : entries fetch' d' p = some es := by
  induction d generalizing d' p es with
  | zero => cases h
  | succ d ih =>
    obtain ⟨d'', rfl⟩ := Nat.exists_eq_add_of_le' hd
    rw [← Nat.add_assoc, entries]
    rw [entries] at h
    cases hp : fetch p with
    | none => rw [hp] at h; cases h
    | some n =>
      rw [hp] at h
      rw [hfetch p n hp]
      cases n with
      | leaf es' => exact h
      | branch keys cs =>
        obtain ⟨ess, hess, rfl⟩ := Option.map_eq_some_iff.mp h
        refine Option.map_eq_some_iff.mpr ⟨ess, ?_, rfl⟩
        rw [mapM_eq_some_iff] at hess ⊢
        exact hess.imp fun _ _ => ih (Nat.le_add_left _ _)

theorem visited_mono {d d' : Nat} (hd : d ≤ d') {p : P} {vs : List P}
    (h : visited fetch d p = some vs) : visited fetch' d' p = some vs := by
  induction d generalizing d' p vs with
  | zero => cases h
  | succ d ih =>
    obtain ⟨d'', rfl⟩ := Nat.exists_eq_add_of_le' hd
    rw [← Nat.add_assoc, visited]
    rw [visited] at h
    cases hp : fetch p with
    | none => rw [hp] at h; cases h
    | some n =>
      rw [hp] at h
      rw [hfetch p n hp]
      cases n with
      | leaf es' => exact h
      | branch keys cs =>
        obtain ⟨vss, hvss, rfl⟩ := Option.map_eq_some_iff.mp h
        refine Option.map_eq_some_iff.mpr ⟨vss, ?_, rfl⟩
        rw [mapM_eq_some_iff] at hvss ⊢
        exact hvss.imp fun _ _ => ih (Nat.le_add_left _ _)

end Mono

/-! ### Separators -/

section Order

variable [LinearOrder K]

/-- A key lies between the separators around child `i`. -/
def Between (keys : List K) (i : Nat) (k : K) : Prop :=
  ∀ j s, keys[j]? = some s → (j < i → s ≤ k) ∧ (i ≤ j → k < s)

/-- The child to descend into: past every separator that is at most the key. -/
def childIndex (keys : List K) (k : K) : Nat := keys.countP fun s => s ≤ k

theorem childIndex_le (keys : List K) (k : K) : childIndex keys k ≤ keys.length :=
  List.countP_le_length

/-- Where the separators ascend, the child to descend into is the one the key lies between the
separators of. -/
theorem between_iff {keys : List K} (hkeys : keys.Pairwise (· < ·)) {i : Nat}
    (hi : i ≤ keys.length) {k : K} : Between keys i k ↔ childIndex keys k = i := by
  induction keys generalizing i with
  | nil =>
    rw [List.length_nil] at hi
    obtain rfl := Nat.le_zero.mp hi
    exact ⟨fun _ => rfl, nofun⟩
  | cons s keys ih =>
    rw [List.pairwise_cons] at hkeys
    rw [childIndex, List.countP_cons]
    cases i with
    | zero =>
      constructor
      · intro h
        have hs := (h 0 s rfl).2 (Nat.zero_le _)
        have hrest : childIndex keys k = 0 :=
          (ih hkeys.2 (Nat.zero_le _)).mp fun j s' hj =>
            ⟨fun hlt => absurd hlt (Nat.not_lt_zero _), fun _ =>
              (h (j + 1) s' hj).2 (Nat.zero_le _)⟩
        rw [childIndex] at hrest
        rw [hrest, if_neg (by simpa using hs)]
      · intro h j s' hj
        refine ⟨fun hlt => absurd hlt (Nat.not_lt_zero _), fun _ => ?_⟩
        have hs : k < s := by
          by_contra hle
          rw [if_pos (by simpa using hle)] at h
          omega
        cases j with
        | zero => cases hj; exact hs
        | succ j => exact lt_trans hs (hkeys.1 s' (List.mem_of_getElem? hj))
    | succ i =>
      rw [List.length_cons] at hi
      have hrec := ih hkeys.2 (i := i) (by omega)
      rw [childIndex] at hrec
      constructor
      · intro h
        have hs := (h 0 s rfl).1 (Nat.succ_pos _)
        rw [if_pos (by simpa using hs), hrec.mp fun j s' hj => ?_]
        exact ⟨fun hlt => (h (j + 1) s' hj).1 (by omega), fun hle => (h (j + 1) s' hj).2 (by omega)⟩
      · intro h j s' hj
        have hs : s ≤ k := by
          by_contra hlt
          -- no separator behind a greater one is at most the key
          have hnone : keys.countP (fun s => s ≤ k) = 0 := by
            rw [List.countP_eq_zero]
            intro s'' hs''
            simpa using lt_trans (not_le.mp hlt) (hkeys.1 s'' hs'')
          rw [hnone, if_neg (by simpa using hlt)] at h
          omega
        rw [if_pos (by simpa using hs)] at h
        cases j with
        | zero => cases hj; exact ⟨fun _ => hs, fun hle => absurd hle (by omega)⟩
        | succ j =>
          have := hrec.mpr (by omega) j s' hj
          exact ⟨fun hlt => this.1 (by omega), fun hle => this.2 (by omega)⟩

/-! ### Bisection -/

/-- The position of a key among ascending keys: how many of them are below it. -/
def position (keys : List K) (k : K) : Nat := keys.countP fun s => s < k

theorem position_le (keys : List K) (k : K) : position keys k ≤ keys.length :=
  List.countP_le_length

theorem position_cons_of_lt {keys : List K} {s k : K} (h : s < k) :
    position (s :: keys) k = position keys k + 1 := by
  rw [position, List.countP_cons, if_pos (decide_eq_true h), position]

theorem position_cons_of_le {keys : List K} {s k : K} (hkeys : (s :: keys).Pairwise (· < ·))
    (h : k ≤ s) : position (s :: keys) k = 0 := by
  rw [position, List.countP_eq_zero]
  intro s' hs'
  rcases List.mem_cons.mp hs' with rfl | hs'
  · simpa using h
  · simpa using le_trans h (le_of_lt ((List.pairwise_cons.mp hkeys).1 s' hs'))

theorem lt_iff_lt_position {keys : List K} (hkeys : keys.Pairwise (· < ·)) {j : Nat} {s k : K}
    (hj : keys[j]? = some s) : s < k ↔ j < position keys k := by
  induction keys generalizing j with
  | nil => cases hj
  | cons s' keys ih =>
    rcases lt_or_ge s' k with hlt | hge
    · rw [position_cons_of_lt hlt]
      cases j with
      | zero =>
        cases hj
        exact ⟨fun _ => Nat.succ_pos _, fun _ => hlt⟩
      | succ j => rw [ih (List.pairwise_cons.mp hkeys).2 hj, Nat.succ_lt_succ_iff]
    · rw [position_cons_of_le hkeys hge]
      refine ⟨fun h => absurd h (not_lt.mpr ?_), fun h => absurd h (Nat.not_lt_zero _)⟩
      cases j with
      | zero => cases hj; exact hge
      | succ j =>
        exact le_trans hge (le_of_lt ((List.pairwise_cons.mp hkeys).1 s (List.mem_of_getElem? hj)))

/-- The child to descend into, by the position of the key: on an equal separator, the child on
its right. -/
theorem childIndex_eq {keys : List K} (hkeys : keys.Pairwise (· < ·)) (k : K) :
    childIndex keys k =
      if keys[position keys k]? = some k then position keys k + 1 else position keys k := by
  induction keys with
  | nil => rfl
  | cons s keys ih =>
    rw [childIndex, List.countP_cons]
    have hrest := ih (List.pairwise_cons.mp hkeys).2
    rw [childIndex] at hrest
    rcases lt_or_ge s k with hlt | hge
    · rw [position_cons_of_lt hlt, List.getElem?_cons_succ, hrest,
        if_pos (decide_eq_true (le_of_lt hlt))]
      split
      · rfl
      · rfl
    · -- no separator behind is at most the key
      have hnone : keys.countP (fun s => s ≤ k) = 0 := by
        rw [List.countP_eq_zero]
        intro s' hs'
        simpa using lt_of_le_of_lt hge ((List.pairwise_cons.mp hkeys).1 s' hs')
      rw [position_cons_of_le hkeys hge, hnone, List.getElem?_cons_zero]
      by_cases heq : s = k
      · rw [if_pos (congrArg some heq), if_pos (decide_eq_true (le_of_eq heq))]
      · rw [if_neg (fun h => heq (Option.some.inj h)),
          if_neg (by simpa using lt_of_le_of_ne hge (Ne.symm heq))]

theorem find?_eq_position {es : List (K × V)} (hes : es.Pairwise fun a b => a.1 < b.1) (k : K) :
    es.find? (fun e => e.1 = k) =
      es[position (es.map Prod.fst) k]?.filter fun e => e.1 = k := by
  induction es with
  | nil => rfl
  | cons e es ih =>
    have hkeys : ((e :: es).map Prod.fst).Pairwise (· < ·) := List.pairwise_map.mpr hes
    rw [List.pairwise_cons] at hes
    rw [List.map_cons] at hkeys ⊢
    rw [List.find?_cons]
    rcases lt_or_ge e.1 k with hlt | hge
    · rw [position_cons_of_lt hlt, List.getElem?_cons_succ, ← ih hes.2,
        decide_eq_false (ne_of_lt hlt)]
    · rw [position_cons_of_le hkeys hge, List.getElem?_cons_zero, Option.filter_some]
      by_cases heq : e.1 = k
      · rw [decide_eq_true heq]
        rfl
      · rw [decide_eq_false heq]
        refine List.find?_eq_none.mpr fun e' he' => ?_
        have hgt : k < e'.1 := lt_of_le_of_lt hge (hes.1 e' he')
        simpa using ne_of_gt hgt

/-- The separators of every branch below a page separate its children. -/
def Separated (fetch : P → Option (Node P K V)) : Nat → P → Prop
  | 0, _ => True
  | d + 1, p =>
    match fetch p with
    | some (.branch keys cs) => ∀ i c, cs[i]? = some c → Separated fetch d c ∧
        ∀ es, entries fetch d c = some es → ∀ e ∈ es, Between keys i e.1
    | _ => True

/-- The descent to a key. -/
def lookup (fetch : P → Option (Node P K V)) : Nat → P → K → Option (Option V)
  | 0, _, _ => none
  | d + 1, p, k =>
    match fetch p with
    | none => none
    | some (.leaf es) => some ((es.find? fun e => e.1 = k).map Prod.snd)
    | some (.branch keys cs) => (cs[childIndex keys k]?).bind fun c => lookup fetch d c k

/-- A branch has ascending separators and one child more than separators. -/
def Ordered (fetch : P → Option (Node P K V)) : Prop :=
  ∀ p keys cs, fetch p = some (.branch keys cs) →
    keys.Pairwise (· < ·) ∧ cs.length = keys.length + 1

variable {fetch fetch' : P → Option (Node P K V)} {d : Nat} {p : P} {es : List (K × V)}

theorem forall₂_getElem? {α β : Type} {R : α → β → Prop} {l : List α} {r : List β}
    (h : List.Forall₂ R l r) {i : Nat} {a : α} (ha : l[i]? = some a) :
    ∃ b, r[i]? = some b ∧ R a b := by
  induction h generalizing i with
  | nil => cases ha
  | cons hab _ ih =>
    cases i with
    | zero => cases ha; exact ⟨_, rfl, hab⟩
    | succ i => exact ih ha

theorem Separated.mono (hfetch : ∀ p n, fetch p = some n → fetch' p = some n) {d' : Nat}
    (hd : d ≤ d') (hes : entries fetch d p = some es) (h : Separated fetch d p) :
    Separated fetch' d' p := by
  induction d generalizing d' p es with
  | zero => cases hes
  | succ d ih =>
    obtain ⟨d'', rfl⟩ := Nat.exists_eq_add_of_le' hd
    rw [← Nat.add_assoc, Separated]
    rw [entries] at hes
    rw [Separated] at h
    cases hp : fetch p with
    | none => rw [hp] at hes; cases hes
    | some n =>
      rw [hp] at hes h
      rw [hfetch p n hp]
      cases n with
      | leaf es' => trivial
      | branch keys cs =>
        obtain ⟨ess, hess, rfl⟩ := Option.map_eq_some_iff.mp hes
        intro i c hc
        obtain ⟨es', -, hes'⟩ := forall₂_getElem? (mapM_eq_some_iff.mp hess) hc
        obtain ⟨hsep, hbetween⟩ := h i c hc
        have hle : d ≤ d'' + d := Nat.le_add_left _ _
        refine ⟨ih hle hes' hsep, fun es'' hes'' => ?_⟩
        obtain rfl : es' = es'' :=
          Option.some.inj ((entries_mono hfetch hle hes').symm.trans hes'')
        exact hbetween es' hes'

theorem lookup_sound (hord : Ordered fetch) (hes : entries fetch d p = some es) (k : K) :
    ∃ o, lookup fetch d p k = some o ∧ ∀ v, o = some v → (k, v) ∈ es := by
  induction d generalizing p es with
  | zero => cases hes
  | succ d ih =>
    rw [entries] at hes
    rw [lookup]
    cases hp : fetch p with
    | none => rw [hp] at hes; cases hes
    | some n =>
      rw [hp] at hes
      cases n with
      | leaf es' =>
        cases hes
        refine ⟨_, rfl, fun v hv => ?_⟩
        obtain ⟨⟨k', v'⟩, hfind, rfl⟩ := Option.map_eq_some_iff.mp hv
        obtain rfl : k' = k := by simpa using List.find?_some hfind
        exact List.mem_of_find?_eq_some hfind
      | branch keys cs =>
        obtain ⟨ess, hess, rfl⟩ := Option.map_eq_some_iff.mp hes
        have hlt : childIndex keys k < cs.length := by
          rw [(hord p keys cs hp).2]
          exact Nat.lt_succ_of_le (childIndex_le keys k)
        obtain ⟨es', hes', hentries⟩ :=
          forall₂_getElem? (mapM_eq_some_iff.mp hess) (List.getElem?_eq_getElem hlt)
        obtain ⟨o, ho, hmem⟩ := ih hentries
        refine ⟨o, ?_, fun v hv => ?_⟩
        · dsimp only
          rw [List.getElem?_eq_getElem hlt]
          exact ho
        · exact List.mem_flatten.mpr ⟨es', List.mem_of_getElem? hes', hmem v hv⟩

theorem find?_key {k : K} {v : V} (hes : es.Pairwise fun a b => a.1 < b.1) (h : (k, v) ∈ es) :
    es.find? (fun e => e.1 = k) = some (k, v) := by
  induction es with
  | nil => cases h
  | cons e es ih =>
    rw [List.pairwise_cons] at hes
    rw [List.find?_cons]
    rcases List.mem_cons.mp h with rfl | h
    · rw [decide_eq_true rfl]
    · rw [decide_eq_false (ne_of_lt (hes.1 _ h))]
      exact ih hes.2 h

theorem getElem?_unique {ess : List (List (K × V))}
    (hes : ess.flatten.Pairwise fun a b => a.1 < b.1) {i j : Nat} {es₁ es₂ : List (K × V)}
    (h₁ : ess[i]? = some es₁) (h₂ : ess[j]? = some es₂) {e : K × V} (he₁ : e ∈ es₁)
    (he₂ : e ∈ es₂) : i = j := by
  rw [List.pairwise_flatten] at hes
  obtain ⟨hi, rfl⟩ := List.getElem?_eq_some_iff.mp h₁
  obtain ⟨hj, rfl⟩ := List.getElem?_eq_some_iff.mp h₂
  have hpair := List.pairwise_iff_getElem.mp hes.2
  rcases Nat.lt_trichotomy i j with hlt | heq | hlt
  · exact absurd (hpair i j hi hj hlt e he₁ e he₂) (lt_irrefl _)
  · exact heq
  · exact absurd (hpair j i hj hi hlt e he₂ e he₁) (lt_irrefl _)

theorem lookup_iff_separated (hord : Ordered fetch) (hes : entries fetch d p = some es)
    (hsorted : es.Pairwise fun a b => a.1 < b.1) :
    (∀ k v, (k, v) ∈ es → lookup fetch d p k = some (some v)) ↔ Separated fetch d p := by
  induction d generalizing p es with
  | zero => cases hes
  | succ d ih =>
    rw [entries] at hes
    rw [Separated]
    simp only [lookup]
    cases hp : fetch p with
    | none => rw [hp] at hes; cases hes
    | some n =>
      rw [hp] at hes
      cases n with
      | leaf es' =>
        cases hes
        refine ⟨fun _ => trivial, fun _ k v h => ?_⟩
        dsimp only
        rw [find?_key hsorted h]
        rfl
      | branch keys cs =>
        obtain ⟨ess, hess, rfl⟩ := Option.map_eq_some_iff.mp hes
        have hforall := mapM_eq_some_iff.mp hess
        obtain ⟨hkeys, hlen⟩ := hord p keys cs hp
        have hchild : ∀ {i c}, cs[i]? = some c → i ≤ keys.length := by
          intro i c hc
          have := (List.getElem?_eq_some_iff.mp hc).1
          omega
        dsimp only
        constructor
        · intro hfind i c hc
          obtain ⟨es', hes', hentries⟩ := forall₂_getElem? hforall hc
          -- the descent to a key of this child goes through this child
          have hdown : ∀ k v, (k, v) ∈ es' →
              childIndex keys k = i ∧ lookup fetch d c k = some (some v) := by
            intro k v hkv
            have hmem : (k, v) ∈ ess.flatten :=
              List.mem_flatten.mpr ⟨es', List.mem_of_getElem? hes', hkv⟩
            obtain ⟨c', hc', hlookup⟩ := Option.bind_eq_some_iff.mp (hfind k v hmem)
            obtain ⟨es'', hes'', hentries''⟩ := forall₂_getElem? hforall hc'
            obtain ⟨o, ho, hsound⟩ := lookup_sound hord hentries'' k
            have hkv' := hsound v (Option.some.inj (ho.symm.trans hlookup))
            have heq := getElem?_unique hsorted hes'' hes' hkv' hkv
            rw [heq] at hc'
            obtain rfl := Option.some.inj (hc'.symm.trans hc)
            exact ⟨heq, hlookup⟩
          refine ⟨(ih hentries (List.pairwise_flatten.mp hsorted |>.1 es'
            (List.mem_of_getElem? hes'))).mp fun k v h => (hdown k v h).2, fun es'' hes'' e he => ?_⟩
          obtain rfl : es' = es'' := Option.some.inj (hentries.symm.trans hes'')
          exact (between_iff hkeys (hchild hc)).mpr (hdown e.1 e.2 he).1
        · intro hsep k v hkv
          obtain ⟨es', hes', hkv'⟩ := List.mem_flatten.mp hkv
          obtain ⟨i, hi⟩ := List.mem_iff_getElem?.mp hes'
          obtain ⟨c, hc, hentries⟩ := forall₂_getElem? hforall.flip hi
          obtain ⟨hsep', hbetween⟩ := hsep i c hc
          have hidx := (between_iff hkeys (hchild hc)).mp (hbetween es' hentries _ hkv')
          rw [hidx, hc]
          exact (ih hentries (List.pairwise_flatten.mp hsorted |>.1 es' hes')).mpr hsep' k v hkv'

end Order

end SearchTree
