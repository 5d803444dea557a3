import Mathlib

/-!
# Fixing the edges into a block with several predecessors

A block starts from the register state its chosen predecessor ended with. Every other
predecessor gets code at its end that brings its own end state into that form: stores,
reloads, swaps and moves, one register after the other, with the tracked state following
each of them.

* `State` — what the allocator tracks: who sits in a register, and where a virtual register is;
  `State.Agree` says the two tell the same story.
* `reconcileEdge`, `fixMergeState` — the pass. It calls for `Instr`s, which `lower` turns into the
  instructions of either backend.
* `Machine`, `run` — what these do to registers and stack slots.
* `Holds` — the machine has each value where the state says it is.
* `merge_edges_realised` — the code of every edge leaves each value where the block expects it, at
  every point on the way each live value has a copy, and a temporary is used only when there is
  one elsewhere.
-/

namespace Regalloc

/-! ### What the allocator tracks -/

/-- A physical register; `RealRegInvalid` is zero. -/
abbrev RealReg := Fin 64

abbrev VRegID := Nat

inductive RegType where
  | int
  | float
  deriving DecidableEq, Repr

/-- The two backends, which swap registers in different ways. -/
inductive Isa where
  | amd64
  | arm64
  deriving DecidableEq, Repr

/-- What is fixed during allocation: the type of each virtual register, the class of each
physical one, which of them may be allocated, and the dominator tree. -/
structure Env (B : Type) where
  isa : Isa
  regType : VRegID → RegType
  regClass : RealReg → RegType
  allocatableRegisters : RegType → List RealReg
  allocatable_class : ∀ t, ∀ r ∈ allocatableRegisters t, regClass r = t
  lowestCommonAncestor : B → B → B

abbrev RegInUseSet := RealReg → Option VRegID

/-- The allocator's state, with the fields of the virtual registers' records as functions. -/
structure State (B : Type) where
  regsInUse : RegInUseSet
  /-- `vrState.r` -/
  r : VRegID → RealReg
  allocatedRegSet : RealReg → Bool
  currentBlockID : Int
  lastUse : VRegID → Int
  lastUseUpdatedAtBlockID : VRegID → Int
  spilled : VRegID → Bool
  lca : VRegID → Option B

def programCounterLiveIn : Int := -2 ^ 31

variable {B : Type}

/-- `range_`: a step for each register in use, in ascending order. -/
def rangeRegs {S : Type} (rs : RegInUseSet) (f : S → RealReg → VRegID → S) (s : S) : S :=
  (List.finRange 64).foldl (fun s r => match rs r with | some v => f s r v | none => s) s

namespace State

def useRealReg (s : State B) (r : RealReg) (v : VRegID) : State B :=
  { s with
    regsInUse := Function.update s.regsInUse r (some v)
    r := Function.update s.r v r
    allocatedRegSet := Function.update s.allocatedRegSet r true }

def releaseRealReg (s : State B) (r : RealReg) : State B :=
  match s.regsInUse r with
  | none => s
  | some current =>
    { s with
      regsInUse := Function.update s.regsInUse r none
      r := Function.update s.r current 0 }

def recordReload [DecidableEq B] (env : Env B) (s : State B) (v : VRegID) (blk : B) : State B :=
  { s with
    spilled := Function.update s.spilled v true
    lca := Function.update s.lca v <| match s.lca v with
      | none => some blk
      | some lca => some (if lca = blk then lca else env.lowestCommonAncestor lca blk) }

def findAllocatable (s : State B) (allocatable : List RealReg) (forbiddenMask : RealReg → Bool) :
    RealReg :=
  (allocatable.find? fun r => !(s.regsInUse r).isSome && !forbiddenMask r).getD 0

/-- Is the virtual register live into the current block? -/
def liveIn (s : State B) (v : VRegID) : Bool :=
  s.lastUseUpdatedAtBlockID v = s.currentBlockID ∧ s.lastUse v = programCounterLiveIn

def forget (s : State B) (_ : RealReg) (v : VRegID) : State B :=
  { s with r := Function.update s.r v 0 }

def restore (s : State B) (r : RealReg) (v : VRegID) : State B :=
  if s.liveIn v then
    { s with regsInUse := Function.update s.regsInUse r (some v), r := Function.update s.r v r }
  else s

/-- Start again from the end of a block, with what is live into the current one. -/
def resetAt (s : State B) (endRegs : RegInUseSet) : State B :=
  let s := rangeRegs s.regsInUse forget s
  let s := { s with regsInUse := fun _ => none }
  rangeRegs endRegs restore s

def updateLiveInVRState (s : State B) (liveIns : List VRegID) : State B :=
  liveIns.foldl (fun s v =>
    { s with
      lastUse := Function.update s.lastUse v programCounterLiveIn
      lastUseUpdatedAtBlockID := Function.update s.lastUseUpdatedAtBlockID v s.currentBlockID }) s

end State

/-! ### The two sides of the tracked state -/

/-- A register is occupied by exactly the virtual register that says it is there. -/
def State.Agree (s : State B) : Prop :=
  ∀ r v, s.regsInUse r = some v ↔ r ≠ 0 ∧ s.r v = r

namespace State

variable {s : State B} {r : RealReg} {v : VRegID}

theorem Agree.mp (h : s.Agree) (hr : s.regsInUse r = some v) : r ≠ 0 ∧ s.r v = r := (h r v).mp hr

theorem Agree.mpr (h : s.Agree) (hr : r ≠ 0 ∧ s.r v = r) : s.regsInUse r = some v :=
  (h r v).mpr hr

theorem Agree.r_eq_zero (h : s.Agree) (hv : ∀ r, s.regsInUse r ≠ some v) : s.r v = 0 := by
  by_contra hne
  exact hv _ (h.mpr ⟨hne, rfl⟩)

@[simp] theorem recordReload_regsInUse [DecidableEq B] {env : Env B} (blk : B) :
    (s.recordReload env v blk).regsInUse = s.regsInUse := rfl

@[simp] theorem recordReload_r [DecidableEq B] {env : Env B} (blk : B) :
    (s.recordReload env v blk).r = s.r := rfl

theorem releaseRealReg_regsInUse (r' : RealReg) :
    (s.releaseRealReg r).regsInUse r' = if r' = r then none else s.regsInUse r' := by
  unfold releaseRealReg
  split
  · next h =>
    split
    · next heq => rw [heq, h]
    · rfl
  · exact Function.update_apply ..

theorem releaseRealReg_r (w : VRegID) :
    (s.releaseRealReg r).r w = if s.regsInUse r = some w then 0 else s.r w := by
  unfold releaseRealReg
  split
  · next h => rw [h, if_neg nofun]
  · next current h =>
    rw [h]
    change Function.update s.r current 0 w = _
    rw [Function.update_apply]
    by_cases hw : w = current
    · rw [if_pos hw, if_pos (by rw [hw])]
    · rw [if_neg hw, if_neg fun h => hw (Option.some.inj h).symm]

theorem useRealReg_regsInUse (r' : RealReg) :
    (s.useRealReg r v).regsInUse r' = if r' = r then some v else s.regsInUse r' :=
  Function.update_apply ..

theorem useRealReg_r (w : VRegID) :
    (s.useRealReg r v).r w = if w = v then r else s.r w := Function.update_apply ..

end State

/-- The registers occupied at the start or the end of a block: each by a virtual register of
its class, and none of these twice. -/
structure Occupants (env : Env B) where
  get : RegInUseSet
  invalid_free : get 0 = none
  injective : ∀ {r r' v}, get r = some v → get r' = some v → r = r'
  matching : ∀ {r v}, get r = some v → env.regType v = env.regClass r

/-! ### The state an edge begins with -/

theorem rangeRegs_rule {S : Type} {u : RegInUseSet} {f : S → RealReg → VRegID → S}
    (P : List RealReg → S → Prop) {s : S} (h0 : P [] s)
    (hskip : ∀ l r s, u r = none → P l s → P (l ++ [r]) s)
    (hstep : ∀ l r v s, u r = some v → P l s → P (l ++ [r]) (f s r v)) :
    P (List.finRange 64) (rangeRegs u f s) := by
  unfold rangeRegs
  induction List.finRange 64 using List.reverseRecOn with
  | nil => exact h0
  | append_singleton l r ih =>
    rw [List.foldl_append, List.foldl_cons, List.foldl_nil]
    cases hr : u r with
    | none => exact hskip l r _ hr ih
    | some v => exact hstep l r v _ hr ih

section Reset

variable {s : State B} {env : Env B}

/-- The first loop of `resetAt` forgets where everything is. -/
theorem cleared (h : s.Agree) :
    (∀ v, (rangeRegs s.regsInUse State.forget s).r v = 0) ∧
      (rangeRegs s.regsInUse State.forget s).liveIn = s.liveIn := by
  have hrun := rangeRegs_rule (u := s.regsInUse) (f := State.forget) (s := s)
    (fun l s' => s'.liveIn = s.liveIn ∧
      (∀ r ∈ l, ∀ v, s.regsInUse r = some v → s'.r v = 0) ∧ ∀ v, s.r v = 0 → s'.r v = 0)
    ⟨rfl, nofun, fun _ h => h⟩ ?_ ?_
  · obtain ⟨hlive, hdone, hrest⟩ := hrun
    refine ⟨fun v => ?_, hlive⟩
    by_cases hv : ∃ r, s.regsInUse r = some v
    · obtain ⟨r, hr⟩ := hv
      exact hdone r (List.mem_finRange r) v hr
    · exact hrest v (h.r_eq_zero (not_exists.mp hv))
  · rintro l r s' hr ⟨hlive, hdone, hrest⟩
    refine ⟨hlive, fun r' hr' w hw => ?_, hrest⟩
    rcases List.mem_append.mp hr' with hr' | hr'
    · exact hdone r' hr' w hw
    · rw [List.mem_singleton.mp hr', hr] at hw
      cases hw
  · rintro l r v s' hr ⟨hlive, hdone, hrest⟩
    have hforget : ∀ w, (w ≠ v → s'.r w = 0) → (s'.forget r v).r w = 0 := by
      intro w hw
      change Function.update s'.r v 0 w = 0
      rw [Function.update_apply]
      split
      · rfl
      · next hne => exact hw hne
    refine ⟨hlive, fun r' hr' w hw => hforget w fun hne => ?_, fun w hw =>
      hforget w fun _ => hrest w hw⟩
    rcases List.mem_append.mp hr' with hr' | hr'
    · exact hdone r' hr' w hw
    · rw [List.mem_singleton.mp hr', hr] at hw
      exact absurd (Option.some.inj hw).symm hne

/-- An edge begins with the live part of the predecessor's end state. -/
theorem resetAt_spec (h : s.Agree) (E : Occupants env) :
    (s.resetAt E.get).Agree ∧ (s.resetAt E.get).liveIn = s.liveIn ∧
      ∀ r v, (s.resetAt E.get).regsInUse r = some v ↔ E.get r = some v ∧ s.liveIn v = true := by
  obtain ⟨hzero, hlive₀⟩ := cleared h
  have hrun := rangeRegs_rule (u := E.get) (f := State.restore)
    (s := { rangeRegs s.regsInUse State.forget s with regsInUse := fun _ => none })
    (fun l s' => s'.liveIn = s.liveIn ∧ s'.Agree ∧
      ∀ r v, s'.regsInUse r = some v ↔ r ∈ l ∧ E.get r = some v ∧ s.liveIn v = true) ?_ ?_ ?_
  · obtain ⟨hlive, hagree, hregs⟩ := hrun
    exact ⟨hagree, hlive, fun r v => (hregs r v).trans (and_iff_right (List.mem_finRange r))⟩
  · refine ⟨hlive₀, fun r v => ⟨nofun, fun ⟨hne, hv⟩ => absurd ((hzero v).symm.trans hv) ?_⟩,
      fun r v => ⟨nofun, fun h => nomatch h.1⟩⟩
    exact fun h0 => hne h0.symm
  · rintro l r s' hr ⟨hlive, hagree, hregs⟩
    refine ⟨hlive, hagree, fun r' v => (hregs r' v).trans ?_⟩
    rw [List.mem_append, List.mem_singleton]
    refine and_congr_left fun hv => ⟨.inl, fun h => h.resolve_right ?_⟩
    rintro rfl
    rw [hr] at hv
    cases hv.1
  · rintro l r v s' hr ⟨hlive, hagree, hregs⟩
    have hr0 : r ≠ 0 := by
      rintro rfl
      rw [E.invalid_free] at hr
      cases hr
    unfold State.restore
    by_cases hv : s'.liveIn v = true
    · rw [if_pos hv]
      have hv' : s.liveIn v = true := by rw [← hlive]; exact hv
      -- nobody else sits here yet, and `v` sits nowhere else
      have hfree : ∀ w, s'.regsInUse r = some w → w = v := by
        intro w hw
        exact Option.some.inj (((hregs r w).mp hw).2.1.symm.trans hr)
      have helse : ∀ r', s'.regsInUse r' = some v → r' = r := by
        intro r' hr'
        exact E.injective ((hregs r' v).mp hr').2.1 hr
      refine ⟨hlive, fun r' w => ?_, fun r' w => ?_⟩
      · change Function.update s'.regsInUse r (some v) r' = some w ↔
          r' ≠ 0 ∧ Function.update s'.r v r w = r'
        have hthere : s'.regsInUse r' = some w ↔ r' ≠ 0 ∧ s'.r w = r' := hagree r' w
        rw [Function.update_apply, Function.update_apply]
        grind
      · change Function.update s'.regsInUse r (some v) r' = some w ↔ _
        rw [Function.update_apply, List.mem_append, List.mem_singleton]
        grind
    · rw [if_neg hv]
      refine ⟨hlive, hagree, fun r' w => (hregs r' w).trans ?_⟩
      rw [List.mem_append, List.mem_singleton]
      refine and_congr_left fun hw => ⟨.inl, fun h => h.resolve_right ?_⟩
      rintro rfl
      rw [hr] at hw
      cases hw.1
      exact hv (by rw [hlive]; exact hw.2)

end Reset

/-- The block whose incoming edges are fixed. -/
structure Target (env : Env B) where
  id : Int
  liveIns : List VRegID
  startRegs : Occupants env
  startFromPredIndex : Nat

structure Pred (env : Env B) where
  blk : B
  endRegs : Occupants env

/-! ### What the code does -/

/-- What the pass asks the backend to insert. A zero `tmp` is `VRegInvalid`. -/
inductive Instr where
  | store (v : VRegID) (r : RealReg)
  | reload (v : VRegID) (r : RealReg)
  | swap (x1 : VRegID) (r1 : RealReg) (x2 : VRegID) (r2 : RealReg) (tmp : RealReg)
  | move (typ : RegType) (dst src : RealReg)
  deriving DecidableEq, Repr

/-- A register of the machine: one the allocator knows, or the one the arm64 backend keeps
for itself. -/
inductive Place where
  | real (r : RealReg)
  | reserved
  deriving DecidableEq, Repr

inductive MInstr where
  /-- Register to stack slot. -/
  | store (v : VRegID) (p : Place)
  /-- Stack slot to register. -/
  | load (v : VRegID) (p : Place)
  | move (typ : RegType) (dst src : Place)
  | xchg (p q : Place)
  deriving DecidableEq, Repr

/-- Exchange two registers through a third. -/
def swapVia (typ : RegType) (t p q : Place) : List MInstr :=
  [.move typ t p, .move typ p q, .move typ q t]

/-- What the backends insert for an instruction. -/
def lower (env : Env B) : Instr → List MInstr
  | .store v r => [.store v (.real r)]
  | .reload v r => [.load v (.real r)]
  | .move typ dst src => [.move typ (.real dst) (.real src)]
  | .swap x1 r1 _ r2 tmp =>
    match env.regType x1, env.isa with
    | .int, .amd64 => [.xchg (.real r1) (.real r2)]
    | .int, .arm64 =>
      swapVia .int (if tmp = 0 then .reserved else .real tmp) (.real r1) (.real r2)
    | .float, _ =>
      if tmp = 0 then
        [.store x1 (.real r1), .move .float (.real r1) (.real r2), .load x1 (.real r2)]
      else swapVia .float (.real tmp) (.real r1) (.real r2)

structure Machine (Val : Type) where
  regs : Place → Val
  slots : VRegID → Val

variable {Val : Type} {env : Env B}

def MInstr.exec (m : Machine Val) : MInstr → Machine Val
  | .store v p => { m with slots := Function.update m.slots v (m.regs p) }
  | .load v p => { m with regs := Function.update m.regs p (m.slots v) }
  | .move _ dst src => { m with regs := Function.update m.regs dst (m.regs src) }
  | .xchg p q =>
    { m with regs := Function.update (Function.update m.regs p (m.regs q)) q (m.regs p) }

/-- Run the code of an edge. -/
def run (env : Env B) (m : Machine Val) (code : List Instr) : Machine Val :=
  (code.flatMap (lower env)).foldl MInstr.exec m

def Place.regClass (env : Env B) : Place → RegType
  | .real r => env.regClass r
  | .reserved => .int

/-- The instruction stays within one class of registers. -/
def MInstr.WellTyped (env : Env B) : MInstr → Prop
  | .store v p => env.regType v = p.regClass env
  | .load v p => env.regType v = p.regClass env
  | .move typ dst src => dst.regClass env = typ ∧ src.regClass env = typ
  | .xchg p q => p.regClass env = .int ∧ q.regClass env = .int

/-! ### Values -/

section Values

variable (live : VRegID → Prop) (val : VRegID → Val)

/-- Every live value has a copy, in its stack slot or in a register other than `t`. -/
def Kept (t : Option Place) (m : Machine Val) : Prop :=
  ∀ v, live v → (∃ p, t ≠ some p ∧ m.regs p = val v) ∨ m.slots v = val v

/-- Every value is where the state says it is: in its register, or else in its stack slot. -/
structure Holds (s : State B) (m : Machine Val) : Prop where
  regs : ∀ {r v}, s.regsInUse r = some v → m.regs (.real r) = val v
  slots : ∀ {v}, live v → s.r v = 0 → m.slots v = val v

/-- A property of the machine before and after each instruction. -/
def Throughout (P : Machine Val → Prop) : Machine Val → List MInstr → Prop
  | m, [] => P m
  | m, i :: is => P m ∧ Throughout P (i.exec m) is

/-- The temporary an instruction is given. -/
def Instr.temporary : Instr → Option RealReg
  | .swap _ _ _ _ tmp => if tmp = 0 then none else some tmp
  | _ => none

/-- Wherever a temporary is used, every live value has a copy elsewhere. -/
def TemporariesFree (env : Env B) : Machine Val → List Instr → Prop
  | _, [] => True
  | m, i :: is =>
    (∀ t, i.temporary = some t → Kept live val (some (.real t)) m) ∧
      TemporariesFree env (run env m [i]) is

end Values

section Sound

variable {live : VRegID → Prop} {val : VRegID → Val} {s s' : State B} {m m' : Machine Val}
  {r : RealReg} {desired : VRegID}

theorem throughout_append {P : Machine Val → Prop} (a b : List MInstr) :
    Throughout P m (a ++ b) ↔ Throughout P m a ∧ Throughout P (a.foldl MInstr.exec m) b := by
  induction a generalizing m with
  | nil =>
    refine (and_iff_right_of_imp fun h => ?_).symm
    cases b with
    | nil => exact h
    | cons i is => exact h.1
  | cons i is ih => rw [List.cons_append, Throughout, Throughout, ih, and_assoc, List.foldl_cons]

theorem Holds.kept (h : Holds live val s m) (hagree : s.Agree) {t : Option Place}
    (ht : ∀ r, t = some (.real r) → s.regsInUse r = none) : Kept live val t m := by
  intro v hv
  by_cases hzero : s.r v = 0
  · exact .inr (h.slots hv hzero)
  · have hin : s.regsInUse (s.r v) = some v := hagree.mpr ⟨hzero, rfl⟩
    refine .inl ⟨.real (s.r v), fun heq => ?_, h.regs hin⟩
    rw [ht _ heq] at hin
    cases hin

theorem kept_of (hagree : s.Agree) (hslots : ∀ v, live v → s.r v = 0 → m.slots v = val v)
    (hregs : ∀ r v, s.regsInUse r = some v → (∃ p, m.regs p = val v) ∨ m.slots v = val v) :
    Kept live val none m := by
  intro v hv
  by_cases hzero : s.r v = 0
  · exact .inr (hslots v hv hzero)
  · exact (hregs _ v (hagree.mpr ⟨hzero, rfl⟩)).imp_left fun ⟨p, hp⟩ => ⟨p, nofun, hp⟩

/-- A machine register that holds nothing the state knows of. -/
def Idle (s : State B) : Place → Prop
  | .real r => s.regsInUse r = none
  | .reserved => True

theorem Idle.ne {t : Place} (ht : Idle s t) {v : VRegID} (hv : s.regsInUse r = some v) :
    Place.real r ≠ t := by
  rintro rfl
  rw [show s.regsInUse r = none from ht] at hv
  cases hv

/-- The exchange of two occupied registers through an idle one. -/
theorem swapVia_spec (typ : RegType) {t : Place} {er : RealReg} {c : VRegID}
    (h : Holds live val s m) (hagree : s.Agree) (ht : Idle s t) (hcur : s.regsInUse r = some c)
    (hdes : s.regsInUse er = some desired) :
    Throughout (Kept live val none) m ((swapVia typ t (.real r) (.real er)).dropLast) ∧
      (swapVia typ t (.real r) (.real er)).foldl MInstr.exec m =
        ⟨Function.update (Function.update (Function.update m.regs t (val c)) (.real r)
          (val desired)) (.real er) (val c), m.slots⟩ := by
  refine ⟨⟨h.kept hagree nofun, kept_of hagree ?_ ?_, kept_of hagree ?_ ?_⟩, ?_⟩
  · exact fun v hv hzero => h.slots hv hzero
  · intro r' v hv
    refine .inl ⟨.real r', ?_⟩
    change Function.update m.regs t _ (.real r') = val v
    rw [Function.update_of_ne (ht.ne hv), h.regs hv]
  · exact fun v hv hzero => h.slots hv hzero
  · -- the first register is overwritten, with its old value in the idle one
    intro r' v hv
    by_cases hr' : r' = r
    · subst hr'
      rw [hcur] at hv
      cases hv
      refine .inl ⟨t, ?_⟩
      change Function.update (Function.update m.regs t (m.regs (.real r'))) (.real r') _ t = val c
      rw [Function.update_of_ne (ht.ne hcur).symm, Function.update_self, h.regs hcur]
    · refine .inl ⟨.real r', ?_⟩
      change Function.update (Function.update m.regs t _) (.real r) _ (.real r') = val v
      rw [Function.update_of_ne (fun heq => hr' (Place.real.inj heq)),
        Function.update_of_ne (ht.ne hv), h.regs hv]
  · change (⟨Function.update (Function.update (Function.update m.regs t (m.regs (.real r)))
      (.real r) (Function.update m.regs t (m.regs (.real r)) (.real er))) (.real er)
      (Function.update (Function.update m.regs t (m.regs (.real r))) (.real r)
        (Function.update m.regs t (m.regs (.real r)) (.real er)) t), m.slots⟩ : Machine Val) = _
    rw [Function.update_of_ne (ht.ne hdes), h.regs hdes, h.regs hcur,
      Function.update_of_ne (ht.ne hcur).symm, Function.update_self]

/-- A value that is also stored is still where it was. -/
theorem Holds.store {c : VRegID} (h : Holds live val s m) (hcur : s.regsInUse r = some c) :
    Holds live val s ((MInstr.store c (.real r)).exec m) := by
  refine ⟨h.regs, fun {v} hv hz => ?_⟩
  change Function.update m.slots c (m.regs (.real r)) v = val v
  rw [Function.update_apply]
  split
  · next heq => rw [heq, h.regs hcur]
  · exact h.slots hv hz

/-- The same exchange through the stack slot of the first value. -/
theorem swapSpill_spec {er : RealReg} {c : VRegID} (h : Holds live val s m) (hagree : s.Agree)
    (hcur : s.regsInUse r = some c) (hdes : s.regsInUse er = some desired) :
    Throughout (Kept live val none) m
        [.store c (.real r), .move .float (.real r) (.real er)] ∧
      [.store c (.real r), .move .float (.real r) (.real er), .load c (.real er)].foldl
          MInstr.exec m =
        ⟨Function.update (Function.update m.regs (.real r) (val desired)) (.real er) (val c),
          ((MInstr.store c (.real r)).exec m).slots⟩ := by
  have hstored := h.store hcur
  refine ⟨⟨h.kept hagree nofun, hstored.kept hagree nofun, kept_of hagree ?_ ?_⟩, ?_⟩
  · exact fun v hv hz => hstored.slots hv hz
  · intro r' v hv
    by_cases hr' : r' = r
    · subst hr'
      rw [hcur] at hv
      cases hv
      refine .inr ?_
      change Function.update m.slots c (m.regs (.real r')) c = val c
      rw [Function.update_self, h.regs hcur]
    · refine .inl ⟨.real r', ?_⟩
      change Function.update m.regs (.real r) _ (.real r') = val v
      rw [Function.update_of_ne (fun heq => hr' (Place.real.inj heq)), h.regs hv]
  · change (⟨Function.update (Function.update m.regs (.real r) (m.regs (.real er))) (.real er)
      (Function.update m.slots c (m.regs (.real r)) c), _⟩ : Machine Val) = _
    rw [Function.update_self, h.regs hcur, h.regs hdes]
    rfl

/-- What code does that leads to a state `s`. -/
structure Fixes (env : Env B) (live : VRegID → Prop) (val : VRegID → Val) (s : State B)
    (m : Machine Val) (code : List Instr) : Prop where
  holds : Holds live val s (run env m code)
  kept : Throughout (Kept live val none) m (code.flatMap (lower env))
  temporaries : TemporariesFree live val env m code
  wellTyped : ∀ i ∈ code.flatMap (lower env), i.WellTyped env

theorem run_append (a b : List Instr) : run env m (a ++ b) = run env (run env m a) b := by
  rw [run, run, run, List.flatMap_append, List.foldl_append]

theorem temporariesFree_append (a b : List Instr) :
    TemporariesFree live val env m (a ++ b) ↔
      TemporariesFree live val env m a ∧ TemporariesFree live val env (run env m a) b := by
  induction a generalizing m with
  | nil => exact (and_iff_right trivial).symm
  | cons i is ih =>
    rw [List.cons_append, TemporariesFree, TemporariesFree, ih, and_assoc, ← run_append]
    rfl

theorem Fixes.nil (h : Holds live val s m) (hagree : s.Agree) : Fixes env live val s m [] :=
  ⟨h, h.kept hagree nofun, trivial, nofun⟩

/-- One instruction of the pass, by the code of the backend. -/
theorem Fixes.of_lowered {i : Instr} {code : List MInstr} (hlower : lower env i = code)
    (hholds : Holds live val s (code.foldl MInstr.exec m))
    (hkept : Throughout (Kept live val none) m code)
    (htemps : TemporariesFree live val env m [i]) (htyped : ∀ mi ∈ code, mi.WellTyped env) :
    Fixes env live val s m [i] := by
  have hcode : [i].flatMap (lower env) = code := by rw [List.flatMap_singleton, hlower]
  refine ⟨?_, ?_, htemps, ?_⟩
  · rw [run, hcode]
    exact hholds
  · rw [hcode]
    exact hkept
  · rw [hcode]
    exact htyped

theorem Fixes.append {a b : List Instr} (ha : Fixes env live val s m a)
    (hb : Fixes env live val s' (run env m a) b) : Fixes env live val s' m (a ++ b) where
  holds := by rw [run_append]; exact hb.holds
  kept := by rw [List.flatMap_append, throughout_append]; exact ⟨ha.kept, hb.kept⟩
  temporaries := (temporariesFree_append a b).mpr ⟨ha.temporaries, hb.temporaries⟩
  wellTyped := by
    intro i hi
    rw [List.flatMap_append, List.mem_append] at hi
    exact hi.elim (ha.wellTyped i) (hb.wellTyped i)

end Sound

/-! ### Code for one register -/

section Register

variable {live : VRegID → Prop} {val : VRegID → Val} {s : State B} {m : Machine Val}
  {r : RealReg} {desired : VRegID}

/-- The state `s'` is the one after the pass has dealt with a register: a machine is in it that
has the desired value there, and the former occupant where that came from. -/
def Leads (live : VRegID → Prop) (val : VRegID → Val) (s : State B) (r : RealReg)
    (desired : VRegID) (s' : State B) : Prop :=
  s'.Agree ∧ ∀ m' : Machine Val, m'.regs (.real r) = val desired →
    (∀ c, s.regsInUse r = some c → s.r desired ≠ 0 → m'.regs (.real (s.r desired)) = val c) →
    (∀ c, s.regsInUse r = some c → s.r desired = 0 → m'.slots c = val c) →
    (∀ r' v, s.regsInUse r' = some v → r' ≠ r → r' ≠ s.r desired → m'.regs (.real r') = val v) →
    (∀ v, live v → s.r v = 0 → m'.slots v = val v) → Holds live val s' m'

/-- Everything sits in a register of its class. -/
def Matched (env : Env B) (s : State B) : Prop :=
  ∀ {r v}, s.regsInUse r = some v → env.regType v = env.regClass r

variable {s' : State B} {c : VRegID} (hleads : Leads live val s r desired s')
  (h : Holds live val s m) (hagree : s.Agree)
  (hclass : env.regType desired = env.regClass r)

include hleads h hagree hclass

omit hclass in
/-- The register is free, and one instruction puts the desired value there. -/
theorem put_fixes {i : Instr} {mi : MInstr} (hfree : s.regsInUse r = none)
    (hlower : lower env i = [mi]) (htmp : i.temporary = none) (htyped : mi.WellTyped env)
    (hexec : mi.exec m = ⟨Function.update m.regs (.real r) (val desired), m.slots⟩) :
    Fixes env live val s' m [i] := by
  have hnone : ∀ c, s.regsInUse r ≠ some c := by
    rw [hfree]
    exact nofun
  have hholds : Holds live val s' (mi.exec m) := by
    rw [hexec]
    refine hleads.2 _ (Function.update_self ..) (fun c hc => absurd hc (hnone c))
      (fun c hc => absurd hc (hnone c)) ?_ fun v hv hz => h.slots hv hz
    intro r' v hv hr' _
    change Function.update m.regs (.real r) _ (.real r') = val v
    rw [Function.update_of_ne (fun heq => hr' (Place.real.inj heq)), h.regs hv]
  refine .of_lowered hlower hholds ⟨h.kept hagree nofun, hholds.kept hleads.1 nofun⟩
    ⟨fun t ht => ?_, trivial⟩ fun i hi => ?_
  · rw [htmp] at ht
    cases ht
  · rw [List.mem_singleton.mp hi]
    exact htyped

/-- The register is free and the desired value on the stack. -/
theorem reload_fixes (hlive : live desired) (hfree : s.regsInUse r = none)
    (her : s.r desired = 0) : Fixes env live val s' m [.reload desired r] := by
  refine put_fixes hleads h hagree hfree rfl rfl hclass ?_
  rw [MInstr.exec, h.slots hlive her]

/-- The register is free and the desired value in another one. -/
theorem move_fixes (hmatched : Matched env s) (hfree : s.regsInUse r = none)
    (her : s.r desired ≠ 0) :
    Fixes env live val s' m [.move (env.regType desired) r (s.r desired)] := by
  have hdes : s.regsInUse (s.r desired) = some desired := hagree.mpr ⟨her, rfl⟩
  refine put_fixes hleads h hagree hfree rfl rfl ⟨hclass.symm, (hmatched hdes).symm⟩ ?_
  rw [MInstr.exec, h.regs hdes]

/-- The occupant goes to the stack, from where the desired value comes. -/
theorem spill_fixes (hmatched : Matched env s) (hlive : live desired)
    (hcur : s.regsInUse r = some c) (hcd : desired ≠ c) (her : s.r desired = 0) :
    Fixes env live val s' m [.store c r, .reload desired r] := by
  have hstored := h.store hcur
  have hholds : Holds live val s' (run env m [.store c r, .reload desired r]) := by
    refine hleads.2 _ ?_ ?_ ?_ ?_ ?_
    · change Function.update m.regs (.real r)
        (Function.update m.slots c (m.regs (.real r)) desired) (.real r) = val desired
      rw [Function.update_self, Function.update_of_ne hcd, h.slots hlive her]
    · exact fun _ _ hne => absurd her hne
    · intro c' hc' _
      rw [hcur] at hc'
      cases hc'
      change Function.update m.slots c (m.regs (.real r)) c = val c
      rw [Function.update_self, h.regs hcur]
    · intro r' v hv hr' _
      change Function.update m.regs (.real r) _ (.real r') = val v
      rw [Function.update_of_ne (fun heq => hr' (Place.real.inj heq)), h.regs hv]
    · exact fun v hv hz => hstored.slots hv hz
  refine ⟨hholds, ⟨h.kept hagree nofun, hstored.kept hagree nofun, hholds.kept hleads.1 nofun⟩,
    ⟨nofun, nofun, trivial⟩, ?_⟩
  intro i hi
  rcases List.mem_cons.mp hi with rfl | hi
  · exact hmatched hcur
  · rcases List.mem_singleton.mp hi with rfl
    exact hclass

omit hagree hclass in
/-- The occupant and the desired value have changed places. -/
theorem swapped_holds (hcur : s.regsInUse r = some c) (her : s.r desired ≠ 0)
    (hrer : r ≠ s.r desired) (regs : Place → Val) (slots : VRegID → Val)
    (hregs : ∀ r' v, s.regsInUse r' = some v → regs (.real r') = m.regs (.real r'))
    (hslots : ∀ v, live v → s.r v = 0 → slots v = val v) :
    Holds live val s' ⟨Function.update (Function.update regs (.real r) (val desired))
      (.real (s.r desired)) (val c), slots⟩ := by
  refine hleads.2 _ ?_ ?_ (fun _ _ hz => absurd hz her) ?_ hslots
  · change Function.update _ _ _ (Place.real r) = _
    rw [Function.update_of_ne (fun heq => hrer (Place.real.inj heq)), Function.update_self]
  · intro c' hc' _
    rw [hcur] at hc'
    cases hc'
    exact Function.update_self ..
  · intro r' v hv hr' her'
    change Function.update _ _ _ (Place.real r') = _
    rw [Function.update_of_ne (fun heq => her' (Place.real.inj heq)),
      Function.update_of_ne (fun heq => hr' (Place.real.inj heq)), hregs r' v hv, h.regs hv]

/-- Both values are in registers. -/
theorem swap_fixes (hmatched : Matched env s) (hcur : s.regsInUse r = some c) (hcd : desired ≠ c)
    (her : s.r desired ≠ 0) {t : RealReg} (ht : t ≠ 0 → s.regsInUse t = none)
    (htc : t ≠ 0 → env.regClass t = env.regType desired) :
    Fixes env live val s' m [.swap c r desired (s.r desired) t] := by
  have hdes : s.regsInUse (s.r desired) = some desired := hagree.mpr ⟨her, rfl⟩
  have hrer : r ≠ s.r desired := by
    intro heq
    rw [← heq, hcur] at hdes
    exact hcd (Option.some.inj hdes).symm
  have hslots : ∀ v, live v → s.r v = 0 → m.slots v = val v := fun v hv hz => h.slots hv hz
  have hcr : env.regClass r = env.regType c := (hmatched hcur).symm
  have her' : env.regClass (s.r desired) = env.regType c := by
    rw [← hmatched hdes, hclass, hcr]
  have htemps : TemporariesFree live val env m [.swap c r desired (s.r desired) t] := by
    refine ⟨fun t' ht' => h.kept hagree ?_, trivial⟩
    rintro r' ⟨⟩
    change (if t = 0 then none else some t) = some t' at ht'
    split at ht'
    · cases ht'
    · next h0 => cases ht'; exact ht h0
  -- the exchange through an idle register, whichever it is
  have hvia : ∀ (t' : Place), Idle s t' → t'.regClass env = env.regType c →
      lower env (.swap c r desired (s.r desired) t) =
        swapVia (env.regType c) t' (.real r) (.real (s.r desired)) →
      Fixes env live val s' m [.swap c r desired (s.r desired) t] := by
    intro t' hidle hct' hlower
    obtain ⟨hkept, hrun⟩ := swapVia_spec (env.regType c) h hagree hidle hcur hdes
    have hholds := swapped_holds hleads h hcur her hrer (Function.update m.regs t' (val c))
      m.slots (fun r' v hv => Function.update_of_ne (hidle.ne hv) ..) hslots
    rw [← hrun] at hholds
    refine .of_lowered hlower hholds
      ⟨hkept.1, hkept.2.1, hkept.2.2, hholds.kept hleads.1 nofun⟩ htemps fun i hi => ?_
    simp only [swapVia, List.mem_cons, List.not_mem_nil, or_false] at hi
    rcases hi with rfl | rfl | rfl
    · exact ⟨hct', hcr⟩
    · exact ⟨hcr, her'⟩
    · exact ⟨her', hct'⟩
  cases htyp : env.regType c with
  | int =>
    cases hisa : env.isa with
    | amd64 =>
      have hlower : lower env (.swap c r desired (s.r desired) t) =
          [.xchg (.real r) (.real (s.r desired))] := by
        rw [lower, htyp, hisa]
      have hholds := swapped_holds hleads h hcur her hrer m.regs m.slots (fun _ _ _ => rfl) hslots
      rw [← h.regs hdes, ← h.regs hcur] at hholds
      refine .of_lowered hlower hholds ⟨h.kept hagree nofun, hholds.kept hleads.1 nofun⟩ htemps
        fun i hi => ?_
      rcases List.mem_singleton.mp hi with rfl
      exact ⟨hcr.trans htyp, her'.trans htyp⟩
    | arm64 =>
      by_cases h0 : t = 0
      · -- the register the backend keeps for itself is always idle
        refine hvia .reserved trivial htyp.symm ?_
        rw [lower, htyp, hisa, if_pos h0]
      · refine hvia (.real t) (ht h0) ?_ ?_
        · rw [Place.regClass, htc h0, hclass, hcr]
        · rw [lower, htyp, hisa, if_neg h0]
  | float =>
    by_cases h0 : t = 0
    · have hlower : lower env (.swap c r desired (s.r desired) t) =
          [.store c (.real r), .move .float (.real r) (.real (s.r desired)),
            .load c (.real (s.r desired))] := by
        rw [lower, htyp]
        exact if_pos h0
      obtain ⟨hkept, hrun⟩ := swapSpill_spec h hagree hcur hdes
      have hholds := swapped_holds hleads h hcur her hrer m.regs _ (fun _ _ _ => rfl)
        fun v hv hz => (h.store hcur).slots hv hz
      rw [← hrun] at hholds
      refine .of_lowered hlower hholds
        ⟨hkept.1, hkept.2.1, hkept.2.2, hholds.kept hleads.1 nofun⟩ htemps fun i hi => ?_
      simp only [List.mem_cons, List.not_mem_nil, or_false] at hi
      rcases hi with rfl | rfl | rfl
      · exact hcr.symm
      · exact ⟨hcr.trans htyp, her'.trans htyp⟩
      · exact her'.symm
    · refine hvia (.real t) (ht h0) ?_ ?_
      · rw [Place.regClass, htc h0, hclass, hcr]
      · rw [lower, htyp]
        exact if_neg h0

end Register

/-! ### The pass -/

variable [DecidableEq B]

def reconcileEdge (env : Env B) (s : State B) (r : RealReg) (pred : B)
    (current : Option VRegID) (desired : VRegID) (freeReg : RealReg) (typ : RegType) :
    State B × List Instr :=
  let er := s.r desired
  match current with
  | some current =>
    if er = 0 then
      -- case 1: the desired value is on the stack
      let s := s.releaseRealReg r
      let s := s.recordReload env desired pred
      (s.useRealReg r desired, [.store current r, .reload desired r])
    else
      -- case 2: both are in registers
      let s := { s with allocatedRegSet := Function.update s.allocatedRegSet freeReg true }
      let s := (s.releaseRealReg r).releaseRealReg er
      let s := (s.useRealReg r desired).useRealReg er current
      (s, [.swap current r desired er freeReg])
  | none =>
    if er ≠ 0 then
      -- case 3: the register is free, the desired value in another one
      let s := s.releaseRealReg er
      (s.useRealReg r desired, [.move typ r er])
    else
      -- case 4: the register is free, the desired value on the stack
      let s := s.recordReload env desired pred
      (s.useRealReg r desired, [.reload desired r])

/-- The registers a block wants occupied. -/
def desiredOccupantsSet (blk : Target env) (r : RealReg) : Bool := (blk.startRegs.get r).isSome

/-- The temporaries for one edge, by class. -/
def temporary (env : Env B) (blk : Target env) (s : State B) (typ : RegType) : RealReg :=
  s.findAllocatable (env.allocatableRegisters typ) (desiredOccupantsSet blk)

/-- One register of one edge. -/
def fixRegister (blk : Target env) (pred : B) (tmp : RegType → RealReg)
    (acc : State B × List Instr) (r : RealReg) : State B × List Instr :=
  match blk.startRegs.get r with
  | none => acc
  | some desired =>
    if acc.1.regsInUse r = some desired then acc
    else
      let typ := env.regType desired
      let (s, code) := reconcileEdge env acc.1 r pred (acc.1.regsInUse r) desired (tmp typ) typ
      (s, acc.2 ++ code)

/-- The code for one edge. -/
def fixEdge (blk : Target env) (s : State B) (pred : Pred env) : State B × List Instr :=
  let s := s.resetAt pred.endRegs.get
  (List.finRange 64).foldl (fixRegister blk pred.blk (temporary env blk s)) (s, [])

/-- The code for the predecessors from index `i` on. -/
def fixPreds (blk : Target env) : Nat → List (Pred env) → State B → State B × List (List Instr)
  | _, [], s => (s, [])
  | i, pred :: preds, s =>
    let (s, code) := if i = blk.startFromPredIndex then (s, []) else fixEdge blk s pred
    let (s, codes) := fixPreds blk (i + 1) preds s
    (s, code :: codes)

/-- The state in which the edges into a block are fixed. -/
def enter (blk : Target env) (s : State B) : State B :=
  State.updateLiveInVRState { s with currentBlockID := blk.id } blk.liveIns

/-- The state afterwards, and the code inserted at the end of each predecessor. -/
def fixMergeState (blk : Target env) (preds : List (Pred env)) (s : State B) :
    State B × List (List Instr) :=
  if preds.length ≤ 1 then (s, preds.map fun _ => [])
  else fixPreds blk 0 preds (enter blk s)

/-! ### One register -/

section Reconcile

variable {s : State B} {r : RealReg} {desired : VRegID} (env) (pred : B) (freeReg : RealReg)
  (typ : RegType)

/-- The occupant of the register goes where the desired value comes from. -/
theorem reconcileEdge_state (h : s.Agree) (hr : r ≠ 0) (hne : s.regsInUse r ≠ some desired) :
    (∀ r', (reconcileEdge env s r pred (s.regsInUse r) desired freeReg typ).1.regsInUse r' =
      if r' = r then some desired
      else if s.r desired ≠ 0 ∧ r' = s.r desired then s.regsInUse r else s.regsInUse r') ∧
    ∀ w, (reconcileEdge env s r pred (s.regsInUse r) desired freeReg typ).1.r w =
      if w = desired then r else if s.regsInUse r = some w then s.r desired else s.r w := by
  have hdesired : ∀ r', s.regsInUse r' = some desired ↔ r' ≠ 0 ∧ s.r desired = r' :=
    fun r' => h r' desired
  unfold reconcileEdge
  cases hcur : s.regsInUse r with
  | some current =>
    by_cases her : s.r desired = 0
    · simp only [her, if_true, State.useRealReg_regsInUse, State.useRealReg_r,
        State.recordReload_regsInUse, State.recordReload_r, State.releaseRealReg_regsInUse,
        State.releaseRealReg_r]
      grind
    · simp only [her, if_false, State.useRealReg_regsInUse, State.useRealReg_r,
        State.releaseRealReg_regsInUse, State.releaseRealReg_r]
      grind
  | none =>
    by_cases her : s.r desired = 0
    · simp only [her, ne_eq, not_true, if_false, State.useRealReg_regsInUse, State.useRealReg_r,
        State.recordReload_regsInUse, State.recordReload_r]
      grind
    · simp only [her, ne_eq, not_false_iff, if_true, State.useRealReg_regsInUse,
        State.useRealReg_r, State.releaseRealReg_regsInUse, State.releaseRealReg_r]
      grind

theorem reconcileEdge_agree (h : s.Agree) (hr : r ≠ 0) (hne : s.regsInUse r ≠ some desired) :
    (reconcileEdge env s r pred (s.regsInUse r) desired freeReg typ).1.Agree := by
  obtain ⟨hregs, hwhere⟩ := reconcileEdge_state env pred freeReg typ h hr hne
  intro r' w
  rw [hregs, hwhere]
  -- where the desired value comes from, and where the two sides stand for `w`
  have hfrom := h (s.r desired) desired
  have hthere := h r' w
  have hhere := h r w
  grind

theorem reconcileEdge_liveIn (current : Option VRegID) :
    (reconcileEdge env s r pred current desired freeReg typ).1.liveIn = s.liveIn := by
  have hrelease : ∀ (s : State B) r, (s.releaseRealReg r).liveIn = s.liveIn := by
    intro s r
    unfold State.releaseRealReg
    split <;> rfl
  have huse : ∀ (s : State B) r v, (s.useRealReg r v).liveIn = s.liveIn := fun _ _ _ => rfl
  have hreload : ∀ (s : State B) v, (s.recordReload env v pred).liveIn = s.liveIn :=
    fun _ _ => rfl
  unfold reconcileEdge
  cases current with
  | some c =>
    dsimp only
    split
    · rw [huse, hreload, hrelease]
    · rw [huse, huse, hrelease, hrelease]
      rfl
  | none =>
    dsimp only
    split
    · rw [huse, hrelease]
    · rw [huse, hreload]

end Reconcile

/-! ### One edge -/

section Edge

variable {live : VRegID → Prop} {val : VRegID → Val} {s : State B} {m : Machine Val}
  {r : RealReg} {desired : VRegID} {blk : Target env} {tmp : RegType → RealReg}
  {liveIn : VRegID → Bool} {done : List RealReg} {acc : State B × List Instr}

theorem reconcileEdge_leads (env : Env B) (pred : B) (freeReg : RealReg) (typ : RegType)
    (hagree : s.Agree) (hr : r ≠ 0) (hne : s.regsInUse r ≠ some desired) :
    Leads live val s r desired
      (reconcileEdge env s r pred (s.regsInUse r) desired freeReg typ).1 := by
  refine ⟨reconcileEdge_agree env pred freeReg typ hagree hr hne,
    fun m' hhere hthere hspilled hregs hslots => ?_⟩
  obtain ⟨hregs', hwhere⟩ := reconcileEdge_state env pred freeReg typ hagree hr hne
  constructor
  · intro r' v hv
    rw [hregs'] at hv
    split at hv
    · next heq => cases hv; rw [heq]; exact hhere
    · next hne' =>
      split at hv
      · next heq => rw [heq.2]; exact hthere v hv heq.1
      · next hne'' =>
        refine hregs r' v hv hne' fun heq => hne'' ⟨fun h0 => ?_, heq⟩
        rw [heq, h0] at hv
        exact (hagree.mp hv).1 rfl
  · intro v hv hzero
    rw [hwhere] at hzero
    split at hzero
    · exact absurd hzero hr
    · split at hzero
      · next hcur => exact hspilled v hcur hzero
      · exact hslots v hv hzero

/-- The temporaries are idle, of the right class, and no register the block wants. -/
structure Spare (blk : Target env) (tmp : RegType → RealReg) (s : State B) : Prop where
  idle : ∀ typ, tmp typ ≠ 0 → s.regsInUse (tmp typ) = none
  unwanted : ∀ typ, tmp typ ≠ 0 → blk.startRegs.get (tmp typ) = none
  regClass : ∀ typ, tmp typ ≠ 0 → env.regClass (tmp typ) = typ

omit [DecidableEq B] in
theorem wanted_ne_zero (hwant : blk.startRegs.get r = some desired) : r ≠ 0 := by
  rintro rfl
  rw [blk.startRegs.invalid_free] at hwant
  cases hwant

/-- The four cases of the pass. -/
theorem reconcileEdge_fixes (h : Holds live val s m) (hagree : s.Agree) (hmatched : Matched env s)
    (hspare : Spare blk tmp s) (hlive : live desired)
    (hwant : blk.startRegs.get r = some desired) (hne : s.regsInUse r ≠ some desired) (pred : B) :
    Fixes env live val (reconcileEdge env s r pred (s.regsInUse r) desired
      (tmp (env.regType desired)) (env.regType desired)).1 m
      (reconcileEdge env s r pred (s.regsInUse r) desired
        (tmp (env.regType desired)) (env.regType desired)).2 := by
  have hclass : env.regType desired = env.regClass r := blk.startRegs.matching hwant
  have hleads : Leads live val s r desired _ := reconcileEdge_leads env pred
    (tmp (env.regType desired)) (env.regType desired) hagree (wanted_ne_zero hwant) hne
  generalize hs' : (reconcileEdge env s r pred (s.regsInUse r) desired
    (tmp (env.regType desired)) (env.regType desired)).1 = s' at hleads ⊢
  unfold reconcileEdge
  cases hcur : s.regsInUse r with
  | some c =>
    have hcd : desired ≠ c := fun heq => hne (by rw [hcur, heq])
    by_cases her : s.r desired = 0
    · simp only [her, if_true]
      exact spill_fixes hleads h hagree hclass hmatched hlive hcur hcd her
    · simp only [her, if_false]
      exact swap_fixes hleads h hagree hclass hmatched hcur hcd her (hspare.idle _)
        (hspare.regClass _)
  | none =>
    by_cases her : s.r desired = 0
    · simp only [her, ne_eq, not_true, if_false]
      exact reload_fixes hleads h hagree hclass hlive hcur her
    · simp only [her, ne_eq, not_false_iff, if_true]
      exact move_fixes hleads h hagree hclass hmatched hcur her

/-- Where an edge stands when the registers in `done` have been dealt with. -/
structure Progress (blk : Target env) (tmp : RegType → RealReg) (liveIn : VRegID → Bool)
    (done : List RealReg) (s : State B) : Prop where
  agree : s.Agree
  liveIn : s.liveIn = liveIn
  matched : Matched env s
  spare : Spare blk tmp s
  settled : ∀ r ∈ done, ∀ v, blk.startRegs.get r = some v → s.regsInUse r = some v

/-- What one register does: nothing, because nobody is wanted there or the one who is sits there
already, or a call of `reconcileEdge`. -/
theorem fixRegister_cases (blk : Target env) (pred : B) (tmp : RegType → RealReg)
    (acc : State B × List Instr) (r : RealReg) :
    ((∀ v, blk.startRegs.get r = some v → acc.1.regsInUse r = some v) ∧
      fixRegister blk pred tmp acc r = acc) ∨
    ∃ desired, blk.startRegs.get r = some desired ∧ acc.1.regsInUse r ≠ some desired ∧
      fixRegister blk pred tmp acc r =
        ((reconcileEdge env acc.1 r pred (acc.1.regsInUse r) desired (tmp (env.regType desired))
          (env.regType desired)).1, acc.2 ++ (reconcileEdge env acc.1 r pred (acc.1.regsInUse r)
          desired (tmp (env.regType desired)) (env.regType desired)).2) := by
  unfold fixRegister
  cases hwant : blk.startRegs.get r with
  | none => exact .inl ⟨nofun, rfl⟩
  | some desired =>
    by_cases hne : acc.1.regsInUse r = some desired
    · refine .inl ⟨fun v hv => ?_, if_pos hne⟩
      cases hv
      exact hne
    · exact .inr ⟨desired, rfl, hne, if_neg hne⟩

theorem Progress.step (h : Progress blk tmp liveIn done acc.1) (pred : B) (r : RealReg) :
    Progress blk tmp liveIn (done ++ [r]) (fixRegister blk pred tmp acc r).1 := by
  rcases fixRegister_cases blk pred tmp acc r with ⟨hhere, heq⟩ | ⟨desired, hwant, hne, heq⟩
  · rw [heq]
    refine ⟨h.agree, h.liveIn, h.matched, h.spare, fun r' hr' => ?_⟩
    rcases List.mem_append.mp hr' with hr' | hr'
    · exact h.settled r' hr'
    · rw [List.mem_singleton.mp hr']
      exact hhere
  · have hr := wanted_ne_zero hwant
    obtain ⟨hregs, -⟩ := reconcileEdge_state env pred (tmp (env.regType desired))
      (env.regType desired) h.agree hr hne
    have hclass := blk.startRegs.matching hwant
    have hfrom : acc.1.r desired ≠ 0 → acc.1.regsInUse (acc.1.r desired) = some desired :=
      fun her => h.agree.mpr ⟨her, rfl⟩
    rw [heq]
    refine ⟨reconcileEdge_agree env pred _ _ h.agree hr hne,
      (reconcileEdge_liveIn ..).trans h.liveIn, ?_, ⟨?_, h.spare.unwanted, h.spare.regClass⟩, ?_⟩
    · intro r' v hv
      rw [hregs] at hv
      split at hv
      · next heq => cases hv; rw [heq]; exact hclass
      · split at hv
        · next heq => rw [h.matched hv, ← hclass, heq.2, h.matched (hfrom heq.1)]
        · exact h.matched hv
    · intro typ htmp
      rw [hregs, if_neg fun heq => ?_, if_neg fun heq => ?_]
      · exact h.spare.idle typ htmp
      · have := h.spare.idle typ htmp
        rw [heq.2, hfrom heq.1] at this
        cases this
      · have := h.spare.unwanted typ htmp
        rw [heq, hwant] at this
        cases this
    · intro r' hr' v hv
      rw [hregs]
      by_cases heq : r' = r
      · rw [if_pos heq, ← hv, heq, hwant]
      · -- the desired value was not in a register that is already settled
        have hsettled : acc.1.regsInUse r' = some v := by
          rcases List.mem_append.mp hr' with hr' | hr'
          · exact h.settled r' hr' v hv
          · exact absurd (List.mem_singleton.mp hr') heq
        rw [if_neg heq, if_neg fun hthere => ?_]
        · exact hsettled
        · rw [hthere.2, hfrom hthere.1] at hsettled
          cases hsettled
          exact heq (blk.startRegs.injective hv hwant)

theorem fixRegister_fixes (h : Progress blk tmp liveIn done acc.1)
    (hf : Fixes env live val acc.1 m acc.2)
    (hlive : ∀ r v, blk.startRegs.get r = some v → live v) (pred : B) (r : RealReg) :
    Fixes env live val (fixRegister blk pred tmp acc r).1 m
      (fixRegister blk pred tmp acc r).2 := by
  rcases fixRegister_cases blk pred tmp acc r with ⟨-, heq⟩ | ⟨desired, hwant, hne, heq⟩
  · rw [heq]
    exact hf
  · rw [heq]
    exact hf.append (reconcileEdge_fixes hf.holds h.agree h.matched h.spare
      (hlive r desired hwant) hwant hne pred)

omit [DecidableEq B] in
theorem spare_temporary (blk : Target env) (s : State B) : Spare blk (temporary env blk s) s := by
  have hfind : ∀ typ, temporary env blk s typ ≠ 0 →
      temporary env blk s typ ∈ env.allocatableRegisters typ ∧
        s.regsInUse (temporary env blk s typ) = none ∧
          blk.startRegs.get (temporary env blk s typ) = none := by
    intro typ htmp
    unfold temporary State.findAllocatable at htmp ⊢
    cases hr : (env.allocatableRegisters typ).find? fun r =>
        !(s.regsInUse r).isSome && !desiredOccupantsSet blk r with
    | none => rw [hr] at htmp; exact absurd rfl htmp
    | some r =>
      have hp := List.find?_some hr
      simp only [desiredOccupantsSet, Bool.and_eq_true, Bool.not_eq_true',
        Option.isSome_eq_false_iff, Option.isNone_iff_eq_none] at hp
      exact ⟨List.mem_of_find?_eq_some hr, hp⟩
  exact ⟨fun typ h => (hfind typ h).2.1, fun typ h => (hfind typ h).2.2,
    fun typ h => env.allocatable_class typ _ (hfind typ h).1⟩

/-- The machine at the end of a predecessor: each live value in its register, or else in its
stack slot. -/
structure AtEnd (live : VRegID → Prop) (val : VRegID → Val) (E : Occupants env)
    (m : Machine Val) : Prop where
  regs : ∀ {r v}, live v → E.get r = some v → m.regs (.real r) = val v
  slots : ∀ {v}, live v → (∀ r, E.get r ≠ some v) → m.slots v = val v

/-- The code of one edge, and the state that passes on to the next. -/
theorem fixEdge_spec (blk : Target env) (pred : Pred env) (hagree : s.Agree) :
    Progress blk (temporary env blk (s.resetAt pred.endRegs.get)) s.liveIn (List.finRange 64)
        (fixEdge blk s pred).1 ∧
      ∀ {Val : Type} (val : VRegID → Val) (m : Machine Val),
        (∀ r v, blk.startRegs.get r = some v → s.liveIn v = true) →
        AtEnd (fun v => s.liveIn v = true) val pred.endRegs m →
        Fixes env (fun v => s.liveIn v = true) val (fixEdge blk s pred).1 m
          (fixEdge blk s pred).2 := by
  obtain ⟨hagree₀, hlive₀, hregs⟩ := resetAt_spec hagree pred.endRegs
  unfold fixEdge
  dsimp only
  generalize s.resetAt pred.endRegs.get = s₀ at hagree₀ hlive₀ hregs ⊢
  induction List.finRange 64 using List.reverseRecOn with
  | nil =>
    refine ⟨⟨hagree₀, hlive₀, fun hv => pred.endRegs.matching ((hregs _ _).mp hv).1,
      spare_temporary blk _, nofun⟩, fun val m _ hm => .nil ⟨?_, ?_⟩ hagree₀⟩
    · intro r v hv
      obtain ⟨hE, hl⟩ := (hregs r v).mp hv
      exact hm.regs hl hE
    · intro v hl hzero
      refine hm.slots hl fun r hr => ?_
      obtain ⟨hr0, hrv⟩ := hagree₀.mp ((hregs r v).mpr ⟨hr, hl⟩)
      exact hr0 (hrv.symm.trans hzero)
  | append_singleton l r ih =>
    rw [List.foldl_append]
    exact ⟨ih.1.step pred.blk r, fun val m hlive hm =>
      fixRegister_fixes ih.1 (ih.2 val m hlive hm) hlive pred.blk r⟩

end Edge

/-! ### All edges -/

section Merge

variable {blk : Target env} {s : State B} {val : VRegID → Val} {m : Machine Val}

omit [DecidableEq B] in
theorem updateLiveInVRState_agree (liveIns : List VRegID) (h : s.Agree) :
    (s.updateLiveInVRState liveIns).Agree := by
  unfold State.updateLiveInVRState
  induction liveIns generalizing s with
  | nil => exact h
  | cons v liveIns ih =>
    rw [List.foldl_cons]
    exact ih h

omit [DecidableEq B] in
theorem enter_agree (h : s.Agree) : (enter blk s).Agree := by
  unfold enter
  exact updateLiveInVRState_agree blk.liveIns h

/-- The code that stands for a predecessor was made by `fixEdge`, in a state that agrees with
itself and has the same live virtual registers. -/
theorem fixPreds_getElem? (blk : Target env) {preds : List (Pred env)} (start : Nat) {i : Nat}
    {pred : Pred env} (hagree : s.Agree) (hi : preds[i]? = some pred)
    (hother : start + i ≠ blk.startFromPredIndex) :
    ∃ s', s'.Agree ∧ s'.liveIn = s.liveIn ∧
      (fixPreds blk start preds s).2[i]? = some (fixEdge blk s' pred).2 := by
  induction preds generalizing start i s with
  | nil => cases hi
  | cons p preds ih =>
    rw [fixPreds]
    cases i with
    | zero =>
      cases hi
      refine ⟨s, hagree, rfl, ?_⟩
      rw [if_neg (show start ≠ blk.startFromPredIndex from hother)]
      rfl
    | succ i =>
      have hnext : ∀ s', s'.Agree → s'.liveIn = s.liveIn → ∃ s'', s''.Agree ∧
          s''.liveIn = s.liveIn ∧
          (fixPreds blk (start + 1) preds s').2[i]? = some (fixEdge blk s'' pred).2 := by
        intro s' hagree' hlive'
        obtain ⟨s'', h1, h2, h3⟩ := ih (start + 1) hagree' hi (by omega)
        exact ⟨s'', h1, h2.trans hlive', h3⟩
      by_cases hskip : start = blk.startFromPredIndex
      · rw [if_pos hskip]
        exact hnext s hagree rfl
      · rw [if_neg hskip]
        have hedge := (fixEdge_spec blk p hagree).1
        exact hnext _ hedge.agree hedge.liveIn

/-- On every edge into a block with several predecessors but the one it starts from, the
inserted code brings the values where the block expects them; on the way no live value loses
its last copy, a temporary is used only when every live value is elsewhere, and no
instruction mixes the two classes. -/
theorem merge_edges_realised (blk : Target env) (preds : List (Pred env)) (s : State B)
    (hagree : s.Agree)
    (hstart : ∀ r v, blk.startRegs.get r = some v → (enter blk s).liveIn v = true)
    (hmany : 1 < preds.length) (i : Nat) (pred : Pred env) (hi : preds[i]? = some pred)
    (hother : i ≠ blk.startFromPredIndex) (val : VRegID → Val) (m : Machine Val)
    (hm : AtEnd (fun v => (enter blk s).liveIn v = true) val pred.endRegs m) :
    ∃ code, (fixMergeState blk preds s).2[i]? = some code ∧
      (∀ r v, blk.startRegs.get r = some v → (run env m code).regs (.real r) = val v) ∧
      Throughout (Kept (fun v => (enter blk s).liveIn v = true) val none) m
        (code.flatMap (lower env)) ∧
      TemporariesFree (fun v => (enter blk s).liveIn v = true) val env m code ∧
      ∀ instr ∈ code.flatMap (lower env), instr.WellTyped env := by
  obtain ⟨s', hagree', hlive, hcode⟩ := fixPreds_getElem? blk 0 (enter_agree hagree) hi
    (by omega)
  rw [← hlive] at hstart hm ⊢
  obtain ⟨hedge, hfixes⟩ := fixEdge_spec blk pred hagree'
  have hfixes := hfixes val m hstart hm
  refine ⟨_, ?_, fun r v hv => hfixes.holds.regs (hedge.settled r (List.mem_finRange r) v hv),
    hfixes.kept, hfixes.temporaries, hfixes.wellTyped⟩
  rw [fixMergeState, if_neg (by omega)]
  exact hcode

/-! A block with two predecessors that end with the same two values, in exchanged registers. -/

def crossEnv : Env Unit where
  isa := .amd64
  regType := fun _ => .int
  regClass := fun _ => .int
  allocatableRegisters := fun typ => if typ = .int then [1, 2, 3] else []
  allocatable_class := by
    intro typ r hr
    cases typ with
    | int => rfl
    | float => cases hr
  lowestCommonAncestor := fun _ _ => ()

/-- One virtual register in the first register, another in the second. -/
def crossRegs (v w : VRegID) (hne : v ≠ w) : Occupants crossEnv where
  get := fun r => if r = 1 then some v else if r = 2 then some w else none
  invalid_free := rfl
  injective := by grind
  matching := fun _ => rfl

def crossTarget : Target crossEnv := ⟨7, [10, 11], crossRegs 10 11 (by decide), 0⟩

def crossPreds : List (Pred crossEnv) :=
  [⟨(), crossRegs 10 11 (by decide)⟩, ⟨(), crossRegs 11 10 (by decide)⟩]

def crossState : State Unit where
  regsInUse := fun _ => none
  r := fun _ => 0
  allocatedRegSet := fun _ => false
  currentBlockID := -1
  lastUse := fun _ => -1
  lastUseUpdatedAtBlockID := fun _ => -1
  spilled := fun _ => false
  lca := fun _ => none

/-- The second predecessor's registers, each with the number of its virtual register in it. -/
def crossMachine : Machine Nat where
  regs := fun p => if p = .real 1 then 11 else if p = .real 2 then 10 else 0
  slots := fun v => v

theorem merge_edges_realised_cross :
    ∃ code, (fixMergeState crossTarget crossPreds crossState).2[1]? = some code ∧
      (run crossEnv crossMachine code).regs (.real 1) = 10 ∧
      (run crossEnv crossMachine code).regs (.real 2) = 11 := by
  have hstart : ∀ r v, crossTarget.startRegs.get r = some v →
      (enter crossTarget crossState).liveIn v = true := by
    intro r v hv
    change (if r = 1 then some 10 else if r = 2 then some 11 else none) = some v at hv
    split at hv
    · cases hv; decide
    · split at hv
      · cases hv; decide
      · cases hv
  have hm : AtEnd (fun v => (enter crossTarget crossState).liveIn v = true) (fun v => v)
      (crossRegs 11 10 (by decide)) crossMachine := by
    refine ⟨fun {r v} _ hv => ?_, fun _ _ => rfl⟩
    change (if r = 1 then some 11 else if r = 2 then some 10 else none) = some v at hv
    split at hv
    · next hr => cases hv; rw [hr]; rfl
    · split at hv
      · next hr => cases hv; rw [hr]; rfl
      · cases hv
  obtain ⟨code, hcode, hregs, -⟩ := merge_edges_realised crossTarget crossPreds crossState
    (fun _ _ => ⟨nofun, fun h => absurd h.2.symm h.1⟩) hstart (by decide) 1 _ rfl (by decide)
    (fun v => v) crossMachine hm
  exact ⟨code, hcode, hregs 1 10 rfl, hregs 2 11 rfl⟩

end Merge

end Regalloc
