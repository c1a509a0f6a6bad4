import Systemtap.Dwarf.Loc2c

/-!
# When the C of a DWARF expression computes its value

Slot `i` is to hold the entry that has `i` others below it (`Holds`). Every operation keeps that, except
for the following, where the C code does something else than DWARF:

* `DW_OP_rot` moves the top into the fourth place, which may not even exist;
* `DW_OP_abs` never finds a slot to be negative, and the comparisons take the sign bit for a large number;
* a shift by 64 or more, and the smallest number divided by `-1`, are undefined in C;
* a register that is not fetched yet counts as the bottom of the stack and not as its top, and has no
  slot of its own;
* `DW_OP_pick` and `DW_OP_over` keep the index of the slot in eight bits, and the depth has 32.

`clean` says that a run of the DWARF machine meets none of them.
-/

namespace Systemtap.Dwarf

open Function Option TState

/-! ## Clean runs -/

/-- The operator does the same in C. -/
def UnOp.agrees : UnOp → Word → Bool
  | .abs, v => !v.msb || v = intMin
  | .neg, _ | .not, _ => true

def BinOp.agrees : BinOp → Word → Word → Bool
  | .le, a, b | .ge, a, b | .lt, a, b | .gt, a, b => a.msb = b.msb
  | .shl, _, b | .shr, _, b | .shra, _, b => b.toNat < 64
  | .div, a, b => !(a = intMin && b = -1)
  | _, _, _ => true

/-- `pending` says that the stack is a register that has not been fetched. -/
def cleanOp (pending : Bool) (s : List Word) : DwOp → Bool
  | .reg _ => s = []
  | .addr _ | .lit _ | .const _ | .breg _ _ | .fbreg _ => !pending
  | .pick n => s.length - 1 - n < 256
  | .overEntry => s.length - 2 < 256
  | .rot => false
  | .un op =>
    match s with
    | v :: _ => op.agrees v
    | [] => true
  | .bin op =>
    match s with
    | b :: a :: _ => op.agrees a b
    | _ => true
  | _ => true

def Input.pending : Input → Bool
  | .register _ => true
  | _ => false

/-- Whether the stack is a register that has not been fetched, after an operation. -/
def pendingAfter (input : Input) (pending : Bool) : DwOp → Bool
  | .reg _ => true
  | .nop | .skip _ => pending
  | .piece _ => input.pending
  | _ => false

section Clean

variable (env : Env) (bias : Word) (input : Input)

def cleanLoop (pending : Bool) (s : List Word) : Option Word → List DwInsn → Bool
  | _, [] => true
  | skipTo, insn :: rest =>
    if skipTo.any (insn.offset < ·) then cleanLoop pending s skipTo rest
    else
      s.length + 1 < 2 ^ 32 && cleanOp pending s insn.op &&
        match dwarfStep env bias input [] s insn.op with
        | none => true
        | some (_, s) => cleanLoop (pendingAfter input pending insn.op) s insn.target rest

/-- The run of an expression meets no operation that C does differently. -/
def clean (expr : List DwInsn) : Bool := cleanLoop env bias input input.pending (input.stack env) none expr

end Clean

/-! ## The operators -/

theorem UnOp.c_eq_dwarf {op : UnOp} {v : Word} (h : op.agrees v = true) : op.c v = op.dwarf v := by
  cases op with
  | neg => rfl
  | not => rfl
  | abs =>
    have hult : v.ult 0 = false := by simp [BitVec.ult]
    have hv : v.msb = false ∨ v = intMin := by simpa [UnOp.agrees] using h
    show (if v.ult 0 then -v else v) = if v.msb then -v else v
    rw [hult]
    rcases hv with hv | hv
    · rw [hv]
    · subst hv
      decide

/-- Words with the same sign bit are in the same order, signed or not. -/
theorem slt_eq_ult {a b : Word} (h : a.msb = b.msb) : a.slt b = a.ult b := by
  rw [BitVec.slt_eq_ult, h]
  simp

theorem sle_eq_ule {a b : Word} (h : a.msb = b.msb) : a.sle b = a.ule b := by
  rw [BitVec.sle_eq_not_slt, BitVec.ule_eq_not_ult, slt_eq_ult h.symm]

theorem BinOp.c_eq_dwarf {op : BinOp} {a b w : Word} (h : op.agrees a b = true)
    (hw : op.dwarf a b = some w) : op.c a b = some w := by
  cases op
  case and | minus | mod | mul | or | plus | xor | eq | ne => exact hw
  case shl | shr | shra =>
    have hb : b.toNat < 64 := by simpa [BinOp.agrees] using h
    rw [← hw]
    exact if_pos hb
  case le | ge | lt | gt =>
    have hm : a.msb = b.msb := by simpa [BinOp.agrees] using h
    rw [← hw]
    simp only [BinOp.c, BinOp.dwarf, sle_eq_ule hm, sle_eq_ule hm.symm, slt_eq_ult hm, slt_eq_ult hm.symm]
  case div =>
    have hab : ¬(a = intMin ∧ b = -1) := by simpa [BinOp.agrees, imp_iff_not_or] using h
    by_cases hb : b = 0
    · rw [show BinOp.dwarf .div a b = none from if_pos hb] at hw
      cases hw
    · rw [show BinOp.dwarf .div a b = some (a.sdiv b) from if_neg hb] at hw
      rw [← hw]
      exact if_neg (not_or.mpr ⟨hb, hab⟩)

/-! ## Slots -/

/-- Slot `i` holds the entry that has `i` others below it. -/
def Holds (σ : Slots) : List Word → Prop
  | [] => True
  | v :: s => σ s.length = some v ∧ Holds σ s

/-- A slot above the stack may be written. -/
theorem Holds.update {σ : Slots} {s : List Word} (h : Holds σ s) {i : Nat} (hi : s.length ≤ i)
    (v : Option Word) : Holds (update σ i v) s := by
  induction s with
  | nil => trivial
  | cons w s ih =>
    have hi' : s.length + 1 ≤ i := hi
    refine ⟨?_, ih h.2 (by omega)⟩
    rw [update_of_ne (by omega)]
    exact h.1

theorem Holds.get {σ : Slots} {s : List Word} (h : Holds σ s) {n : Nat} {v : Word} (hv : s[n]? = some v) :
    σ (s.length - 1 - n) = some v := by
  induction s generalizing n with
  | nil => cases hv
  | cons w s ih =>
    cases n with
    | zero =>
      have hw : w = v := by simpa using hv
      rw [← hw]
      exact h.1
    | succ n =>
      have hlen : (w :: s).length - 1 - (n + 1) = s.length - 1 - n := by
        simp only [List.length_cons]
        omega
      rw [hlen]
      exact ih h.2 (by simpa using hv)

section Sound

variable {env : Env}

theorem exec_append (slots : Nat) (c d : List CStmt) (σ : Slots) :
    exec env slots (c ++ d) σ = (exec env slots c σ).bind (exec env slots d) := by
  induction c generalizing σ with
  | nil => rfl
  | cons x c ih =>
    show (x.exec env slots σ).bind (exec env slots (c ++ d))
      = ((x.exec env slots σ).bind (exec env slots c)).bind (exec env slots d)
    cases x.exec env slots σ with
    | none => rfl
    | some σ' => exact ih σ'

theorem exec_assign {slots i : Nat} (hi : i < slots) {e : CExpr} {σ : Slots} {v : Word}
    (he : e.eval env σ = some v) (code : List CStmt) :
    exec env slots (.assign i e :: code) σ = exec env slots code (update σ i (some v)) := by
  show (if i < slots then (e.eval env σ).map fun v => update σ i (some v) else none).bind
    (exec env slots code) = _
  rw [if_pos hi, he]
  rfl

/-- The stack is in the slots, and the pieces so far are `P`. -/
structure Ready (env : Env) (P : List (Located × Nat)) (st : TState) (σ : Slots) (s : List Word) :
    Prop where
  /-- The program so far leaves `σ`, with the slots it will have declared. -/
  leaves : ∀ slots, st.maxStack ≤ slots → exec env slots st.program (fun _ => none) = some σ
  room : st.stackDepth ≤ st.maxStack
  fetched : st.tosRegister = none
  depth : st.stackDepth = s.length
  pieces : st.pieces = P
  holds : Holds σ s

/-- The translator stands where the machine has the stack `s`. -/
inductive Stands (env : Env) (P : List (Located × Nat)) (st : TState) : Bool → List Word → Prop where
  | slots {σ : Slots} {s : List Word} (ready : Ready env P st σ s) : Stands env P st false s
  | register {reg : Nat} {σ : Slots} (ready : Ready env P { st with tosRegister := none } σ [])
      (pending : st.tosRegister = some reg) : Stands env P st true [env.reg reg]

variable {P : List (Located × Nat)} {st : TState} {σ : Slots} {s : List Word} {pending : Bool}

theorem Stands.ready (h : Stands env P st false s) : ∃ σ, Ready env P st σ s := by
  cases h with
  | slots ready => exact ⟨_, ready⟩

/-- Entries on the translator's stack are in slots. -/
theorem Stands.ready_of_pos (h : Stands env P st pending s) (hd : 0 < st.stackDepth) :
    ∃ σ, Ready env P st σ s := by
  cases h with
  | slots ready => exact ⟨_, ready⟩
  | register ready p => exact absurd ready.depth hd.ne'

theorem Stands.pieces (h : Stands env P st pending s) : st.pieces = P := by
  cases h with
  | slots ready => exact ready.pieces
  | register ready p => exact ready.pieces

/-- What the C code of an expression does not depend on. -/
theorem Stands.flags (h : Stands env P st pending s) (tosValue usedDeref pieceStart : Bool) :
    Stands env P { st with tosValue, usedDeref, pieceStart } pending s := by
  cases h with
  | slots h => exact .slots ⟨h.leaves, h.room, h.fetched, h.depth, h.pieces, h.holds⟩
  | register h p => exact .register ⟨h.leaves, h.room, h.fetched, h.depth, h.pieces, h.holds⟩ p

/-! ## The stack of the translator -/

theorem TState.deepen_eq (st : TState) : ∃ m, st.deepen = { st with maxStack := m } ∧
    (st.stackDepth ≤ st.maxStack → st.stackDepth + 1 < 2 ^ 32 →
      st.maxStack ≤ m ∧ st.stackDepth < m) := by
  unfold deepen
  split
  · exact ⟨_, rfl, by omega⟩
  · exact ⟨st.maxStack, rfl, by omega⟩

/-- There is a slot for one more entry. -/
theorem Ready.deepen (h : Ready env P st σ s) (hfits : s.length + 1 < 2 ^ 32) :
    Ready env P st.deepen σ s ∧ s.length < st.deepen.maxStack := by
  obtain ⟨m, hm, hle⟩ := deepen_eq st
  have hdepth := h.depth
  obtain ⟨hgrows, hslot⟩ := hle h.room (by omega)
  rw [hm]
  refine ⟨⟨?_, hslot.le, h.fetched, hdepth, h.pieces, h.holds⟩, ?_⟩
  · intro slots hs
    exact h.leaves slots (hgrows.trans hs)
  · show s.length < m
    omega

theorem Ready.emit {σ' : Slots} {t : List Word} (h : Ready env P st σ s) {code : List CStmt}
    (hcode : ∀ slots, st.maxStack ≤ slots → exec env slots code σ = some σ')
    (hlen : s.length = t.length) (ht : Holds σ' t) : Ready env P (st.emit code) σ' t where
  leaves slots hs := by
    show exec env slots (st.program ++ code) _ = _
    rw [exec_append, h.leaves slots hs]
    exact hcode slots hs
  room := h.room
  fetched := h.fetched
  depth := h.depth.trans hlen
  pieces := h.pieces
  holds := ht

/-- The entry above the stack is in its slot. -/
theorem Ready.bump {v : Word} {n : Nat} (h : Ready env P st σ s) (hslot : s.length < st.maxStack)
    (hn : n = s.length + 1) (hv : σ s.length = some v) :
    Ready env P { st with stackDepth := n } σ (v :: s) :=
  ⟨h.leaves, hn.trans_le hslot, h.fetched, hn, h.pieces, hv, h.holds⟩

variable {v : Word}

theorem Ready.push (h : Ready env P st σ s) (hfits : s.length + 1 < 2 ^ 32) {e : CExpr}
    (he : e.eval env σ = some v) : Ready env P (st.push e) (update σ s.length (some v)) (v :: s) := by
  obtain ⟨hready, hslot⟩ := h.deepen hfits
  have hdepth := h.depth
  have hassign : Ready env P (st.deepen.emit [.assign st.stackDepth e]) (update σ s.length (some v)) s := by
    rw [hdepth]
    exact hready.emit (fun slots hs => exec_assign (hslot.trans_le hs) he []) rfl
      (h.holds.update le_rfl _)
  have hn : (st.stackDepth + 1) % 2 ^ 32 = s.length + 1 := by omega
  exact hassign.bump hslot hn (update_self _ _ _)

theorem Stands.push (h : Stands env P st false s) (hfits : s.length + 1 < 2 ^ 32) {e : CExpr}
    (he : ∀ σ, e.eval env σ = some v) : Stands env P (st.push e) false (v :: s) := by
  obtain ⟨σ, ready⟩ := h.ready
  exact .slots (ready.push hfits (he σ))

variable {st' : TState} {i : Nat}

/-- The entry popped stays in its slot. -/
theorem Ready.pop (h : Ready env P st σ s) (hpop : st.pop = .ok (i, st')) :
    ∃ v t, s = v :: t ∧ i = t.length ∧ Ready env P st' σ t ∧ σ i = some v := by
  have hdepth := h.depth
  have hroom := h.room
  cases s with
  | nil =>
    have h0 : ¬0 < st.stackDepth := by
      rw [hdepth]
      exact lt_irrefl 0
    rw [pop, if_neg h0, h.fetched] at hpop
    cases hpop
  | cons v t =>
    have h0 : 0 < st.stackDepth := by
      rw [hdepth]
      exact Nat.succ_pos _
    have hlen : st.stackDepth - 1 = t.length := by
      rw [hdepth]
      rfl
    rw [pop, if_pos h0, hlen] at hpop
    cases hpop
    refine ⟨v, t, rfl, rfl, ⟨h.leaves, ?_, h.fetched, rfl, h.pieces, h.holds.2⟩, h.holds.1⟩
    show t.length ≤ st.maxStack
    omega

theorem Stands.pop (h : Stands env P st pending s) (hpop : st.pop = .ok (i, st')) :
    ∃ v t σ, s = v :: t ∧ i = t.length ∧ Ready env P st' σ t ∧ σ i = some v := by
  cases h with
  | slots ready =>
    obtain ⟨v, t, hs, hi, hready, hv⟩ := ready.pop hpop
    exact ⟨v, t, _, hs, hi, hready, hv⟩
  | @register reg σ ready hreg =>
    -- the register is fetched into the slot that is free
    have hdepth : st.stackDepth = 0 := ready.depth
    have hdeepen : { st.deepen with tosRegister := none } =
        ({ st with tosRegister := none } : TState).deepen := by
      unfold deepen
      split_ifs <;> rfl
    obtain ⟨hready, hslot⟩ := ready.deepen (by norm_num)
    rw [← hdeepen] at hready hslot
    rw [pop, if_neg (by omega), hreg] at hpop
    cases hpop
    rw [hdepth]
    exact ⟨env.reg reg, [], update σ 0 (some (env.reg reg)), rfl, rfl,
      hready.emit (fun slots hs => exec_assign (hslot.trans_le hs) rfl []) rfl trivial,
      update_self _ _ _⟩

/-! ## Operations -/

theorem bind_ok {α β : Type} {x : Except Failure α} {f : α → Except Failure β} {r : β}
    (h : x.bind f = .ok r) : ∃ a, x = .ok a ∧ f a = .ok r := by
  cases x with
  | error e => cases h
  | ok a => exact ⟨a, rfl, h⟩

theorem map_ok {α β : Type} {x : Except Failure α} {f : α → β} {r : β} (h : x.map f = .ok r) :
    ∃ a, x = .ok a ∧ f a = r := by
  cases x with
  | error e => cases h
  | ok a => exact ⟨a, rfl, Except.ok.inj h⟩

/-- An operation on the top entry. -/
theorem Stands.unary (h : Stands env P st pending s)
    (hfits : s.length + 1 < 2 ^ 32) {e : Nat → CExpr} (hst : st.unary e = .ok st') :
    ∃ v t, s = v :: t ∧ ∀ w, (∀ σ i, σ i = some v → (e i).eval env σ = some w) →
      Stands env P st' false (w :: t) := by
  obtain ⟨⟨i, st1⟩, hpop, hpush⟩ := bind_ok hst
  obtain ⟨v, t, σ, hs, hi, ready, hv⟩ := h.pop hpop
  cases hpush
  subst hs
  refine ⟨v, t, rfl, ?_⟩
  intro w he
  have hlen : t.length + 1 < 2 ^ 32 := Nat.lt_of_succ_lt hfits
  exact .slots (ready.push hlen (he σ i hv))

/-- An operation on the two top entries. -/
theorem Stands.binary (h : Stands env P st pending s)
    (hfits : s.length + 1 < 2 ^ 32) {e : Nat → Nat → CExpr} (hst : st.binary e = .ok st') :
    ∃ b a t, s = b :: a :: t ∧
      ∀ w, (∀ σ i j, σ i = some a → σ j = some b → (e i j).eval env σ = some w) →
        Stands env P st' false (w :: t) := by
  obtain ⟨⟨j, st1⟩, hpop, hst1⟩ := bind_ok hst
  obtain ⟨⟨i, st2⟩, hpop', hpush⟩ := bind_ok hst1
  obtain ⟨b, t1, σ, hs, hj, ready, hb⟩ := h.pop hpop
  obtain ⟨a, t, ht, hi, ready', ha⟩ := ready.pop hpop'
  cases hpush
  subst hs ht
  refine ⟨b, a, t, rfl, ?_⟩
  intro w he
  have hlen : t.length + 1 < 2 ^ 32 := Nat.lt_of_succ_lt (Nat.lt_of_succ_lt hfits)
  exact .slots (ready'.push hlen (he σ i j ha hb))

theorem Stands.pick (h : Stands env P st pending s)
    (hfits : s.length + 1 < 2 ^ 32) {n : Nat} (hn : s.length - 1 - n < 256)
    (hv : s[n]? = some v) (hst : st.pick n = .ok st') : Stands env P st' false (v :: s) := by
  by_cases hd : st.stackDepth ≤ n
  · rw [TState.pick, if_pos hd] at hst
    cases hst
  · obtain ⟨σ, ready⟩ := h.ready_of_pos (by omega)
    have hdepth := ready.depth
    have hstack : st.stack n % 2 ^ 8 = s.length - 1 - n := by
      unfold stack
      omega
    rw [TState.pick, if_neg hd, hstack] at hst
    cases hst
    exact .slots (ready.push hfits (ready.holds.get hv))

theorem Stands.swap {a b : Word}
    (h : Stands env P st pending (a :: b :: s)) (hfits : s.length + 3 < 2 ^ 32)
    (hst : st.swap = .ok st') : Stands env P st' false (b :: a :: s) := by
  by_cases hd : st.stackDepth < 2
  · rw [TState.swap, if_pos hd] at hst
    cases hst
  · obtain ⟨σ, ready⟩ := h.ready_of_pos (by omega)
    have hdepth : st.stackDepth = s.length + 2 := ready.depth
    obtain ⟨hready, hslot⟩ := ready.deepen hfits
    have hneg : st.stack (-1) = s.length + 2 := by
      unfold stack
      omega
    have hzero : st.stack 0 = s.length + 1 := by
      unfold stack
      omega
    have hone : st.stack 1 = s.length := by
      unfold stack
      omega
    rw [TState.swap, if_neg hd, hneg, hzero, hone] at hst
    cases hst
    have he1 : (CExpr.slot (s.length + 1)).eval env σ = some a := ready.holds.1
    have hb : σ s.length = some b := ready.holds.2.1
    let σ1 := update σ (s.length + 2) (some a)
    let σ2 := update σ1 (s.length + 1) (some b)
    have he2 : (CExpr.slot s.length).eval env σ1 = some b := by
      rw [← hb]
      exact update_of_ne (by omega) _ _
    have he3 : (CExpr.slot (s.length + 2)).eval env σ2 = some a := by
      show update σ1 (s.length + 1) (some b) (s.length + 2) = some a
      rw [update_of_ne (by omega)]
      exact update_self _ _ _
    refine .slots (σ := update σ2 s.length (some a)) (hready.emit ?_ rfl ⟨?_, update_self _ _ _, ?_⟩)
    · intro slots hs
      have hslots : s.length + 2 < slots := hslot.trans_le hs
      rw [exec_assign (by omega) he1, exec_assign (by omega) he2, exec_assign (by omega) he3]
      rfl
    · show update σ2 s.length (some a) (s.length + 1) = some b
      rw [update_of_ne (by omega)]
      exact update_self _ _ _
    · exact ((ready.holds.2.2.update (by omega) _).update (by omega) _).update le_rfl _

theorem Stands.drop (h : Stands env P st pending (v :: s)) (hpop : st.pop = .ok (i, st')) :
    Stands env P (st'.emit [.comment i]) false s := by
  obtain ⟨w, t, σ, hs, hi, ready, hw⟩ := h.pop hpop
  cases hs
  exact .slots (ready.emit (fun _ _ => rfl) rfl ready.holds)

theorem Stands.stackValue
    (h : Stands env P st pending (v :: s)) (hfits : s.length + 2 < 2 ^ 32)
    (hpop : st.pop = .ok (i, st')) : Stands env P { st'.raise with tosValue := true } false (v :: s) := by
  obtain ⟨w, t, σ, hs, hi, ready, hw⟩ := h.pop hpop
  cases hs
  rw [hi] at hw
  obtain ⟨hready, hslot⟩ := ready.deepen (Nat.lt_of_succ_lt hfits)
  have hdepth := ready.depth
  exact (Stands.slots (hready.bump hslot (by omega) hw)).flags _ _ _

variable {input : Input} {bias : Word} {needFb : Bool}

theorem Stands.dup {a : Word} (h : Stands env P st pending (a :: s)) (hfits : s.length + 2 < 2 ^ 32)
    (hd : ¬st.stackDepth < 1) : Stands env P (st.push (.slot (st.stack 0))) false (a :: a :: s) := by
  obtain ⟨σ, ready⟩ := h.ready_of_pos (by omega)
  have hdepth : st.stackDepth = s.length + 1 := ready.depth
  have hzero : st.stack 0 = s.length := by
    unfold stack
    omega
  rw [hzero]
  exact .slots (ready.push hfits ready.holds.1)

variable {s' : List Word}

theorem Stands.deref (h : Stands env P st pending s)
    (hfits : s.length + 1 < 2 ^ 32) {n : Nat} (hst : (st.unary (.deref n)).map dereferenced = .ok st')
    (hs : ∀ a t, s = a :: t → (env.mem n a).map (· :: t) = some s') : Stands env P st' false s' := by
  obtain ⟨st1, hst1, rfl⟩ := map_ok hst
  obtain ⟨a, t, ht, hunary⟩ := h.unary hfits hst1
  obtain ⟨w, hw, rfl⟩ := map_eq_some_iff.mp (hs a t ht)
  refine (hunary w ?_).flags _ _ _
  intro σ i hi
  show (σ i).bind (env.mem n) = some w
  rw [hi]
  exact hw

theorem Stands.xderef (h : Stands env P st pending s) (hfits : s.length + 1 < 2 ^ 32) {n : Nat}
    (hst : (st.binary fun as addr => .xderef n addr as).map dereferenced = .ok st')
    (hs : ∀ a as t, s = a :: as :: t → (env.xmem n a as).map (· :: t) = some s') :
    Stands env P st' false s' := by
  obtain ⟨st1, hst1, rfl⟩ := map_ok hst
  obtain ⟨a, as, t, ht, hbinary⟩ := h.binary hfits hst1
  obtain ⟨w, hw, rfl⟩ := map_eq_some_iff.mp (hs a as t ht)
  refine (hbinary w ?_).flags _ _ _
  intro σ i j hi hj
  show (σ j).bind (fun a => (σ i).bind (env.xmem n a)) = some w
  rw [hi, hj]
  exact hw

/-- One operation that does not end a piece. -/
theorem Stands.translateOp {op : DwOp}
    (h : Stands env P st pending s) (hfits : s.length + 1 < 2 ^ 32) (hpiece : op.isPiece = false)
    (hclean : cleanOp pending s op = true) (hst : translateOp input bias needFb st op = .ok st')
    (hs : dwarfOp env bias op s = some s') :
    Stands env P st' (pendingAfter input pending op) s' := by
  cases op
  case nop | skip =>
    cases hst
    cases hs
    exact h
  case rot => cases hclean
  case piece => cases hpiece
  case bra | callFrameCfa | pushObjectAddress | unrecognized => cases hst
  case addr | lit | const | breg =>
    have hp : pending = false := Bool.not_eq_true' pending ▸ hclean
    subst hp
    cases hst
    cases hs
    exact h.push hfits fun _ => rfl
  case fbreg offset =>
    have hp : pending = false := Bool.not_eq_true' pending ▸ hclean
    subst hp
    cases needFb with
    | false => cases hst
    | true =>
      cases hst
      cases hs
      exact h.push hfits fun _ => rfl
  case reg reg =>
    have hnil : s = [] := of_decide_eq_true hclean
    subst hnil
    cases hst
    cases hs
    cases h with
    | slots h => exact .register ⟨h.leaves, h.room, rfl, h.depth, h.pieces, h.holds⟩ rfl
  case deref | derefSize =>
    refine h.deref hfits hst ?_
    intro a t ht
    subst ht
    exact hs
  case xderef | xderefSize =>
    refine h.xderef hfits hst ?_
    intro a as t ht
    subst ht
    exact hs
  case un op =>
    obtain ⟨v, t, rfl, hunary⟩ := h.unary hfits hst
    cases hs
    refine hunary _ ?_
    intro σ i hi
    show (σ i).map op.c = _
    rw [hi, ← UnOp.c_eq_dwarf hclean]
    rfl
  case bin op =>
    obtain ⟨b, a, t, rfl, hbinary⟩ := h.binary hfits hst
    obtain ⟨w, hw, rfl⟩ := map_eq_some_iff.mp hs
    refine hbinary w ?_
    intro σ i j hi hj
    show (σ i).bind (fun a => (σ j).bind (op.c a)) = some w
    rw [hi, hj]
    exact BinOp.c_eq_dwarf hclean hw
  case plusUconst number =>
    obtain ⟨v, t, rfl, hunary⟩ := h.unary (e := fun x => .plusU x number) hfits hst
    cases hs
    refine hunary _ ?_
    intro σ i hi
    show (σ i).map (· + number) = _
    rw [hi]
    rfl
  case pick n =>
    obtain ⟨v, hv, rfl⟩ := map_eq_some_iff.mp hs
    exact h.pick hfits (of_decide_eq_true hclean) hv hst
  case dup =>
    match s, hs, h with
    | a :: s, hs, h =>
      cases hs
      by_cases hd : st.stackDepth < 1
      · rw [Dwarf.translateOp, if_pos hd] at hst
        cases hst
      · rw [Dwarf.translateOp, if_neg hd] at hst
        cases hst
        exact h.dup hfits hd
  case drop =>
    match s, hs, h with
    | a :: s, hs, h =>
      cases hs
      obtain ⟨⟨i, st1⟩, hpop, hst1⟩ := bind_ok hst
      cases hst1
      exact h.drop hpop
  case overEntry =>
    match s, hs, h with
    | a :: b :: s, hs, h =>
      cases hs
      exact h.pick (n := 1) hfits (of_decide_eq_true hclean) rfl hst
  case swap =>
    match s, hs, h with
    | a :: b :: s, hs, h =>
      cases hs
      exact h.swap hfits hst
  case stackValue =>
    match s, hs, h with
    | a :: s, hs, h =>
      cases hs
      by_cases hd : 1 < st.stackDepth
      · rw [Dwarf.translateOp, if_pos hd] at hst
        cases hst
      · rw [Dwarf.translateOp, if_neg hd] at hst
        obtain ⟨⟨i, st1⟩, hpop, hst1⟩ := bind_ok hst
        cases hst1
        exact h.stackValue hfits hpop

/-! ## Pieces -/

theorem Stands.finish {loc : Located}
    (h : Stands env P st pending (v :: s)) (hloc : st.finish = .ok loc) : loc.value env = some v := by
  cases h with
  | @slots σ _ ready =>
    have hdepth : st.stackDepth = s.length + 1 := ready.depth
    by_cases hmany : 1 < st.stackDepth
    · rw [finish, if_pos hmany] at hloc
      cases hloc
    · have hone : st.stackDepth = 1 := by omega
      have hnil : s.length = 0 := by omega
      rw [finish, if_neg hmany, if_pos hone] at hloc
      cases hloc
      show (exec env st.maxStack st.program fun _ => none).bind (· 0) = some v
      rw [ready.leaves st.maxStack le_rfl, ← hnil]
      exact ready.holds.1
  | @register reg σ ready p =>
    have hdepth : st.stackDepth = 0 := ready.depth
    have hreg : (if st.program ≠ [] then .error Failure.registerNotAlone else .ok (Located.register reg))
        = Except.ok loc := by
      rw [finish, if_neg (by omega), if_neg (by omega), p] at hloc
      exact hloc
    split at hreg
    · cases hreg
    · cases hreg
      rfl

theorem stands_reset (maxStack : Nat) (P : List (Located × Nat)) :
    Stands env P (reset input maxStack P) input.pending (input.stack env) := by
  have hempty : Ready env P ⟨0, maxStack, none, false, false, [], P, true⟩ (fun _ => none) [] :=
    ⟨fun _ _ => rfl, Nat.zero_le _, rfl, rfl, rfl, trivial⟩
  have hfits : ([] : List Word).length + 1 < 2 ^ 32 := by norm_num
  cases input with
  | none => exact .slots hempty
  | address => exact .slots (hempty.push hfits rfl)
  | value => exact (Stands.slots (hempty.push hfits rfl)).flags _ _ _
  | register reg => exact .register hempty rfl

/-! ## Expressions -/

/-- The translator stands where the machine has the stack `s`, and its pieces so far have the values of
the machine's. -/
def Follows (env : Env) (st : TState) (pending : Bool) (values s : List Word) : Prop :=
  ∃ P, Stands env P st pending s ∧ P.map (fun p => p.1.value env) = values.map some

theorem translateStep_ok {op : DwOp} (h : translateStep input bias needFb st op = .ok st') :
    ∃ st1, translateOp input bias needFb st op = .ok st1 ∧ st' = { st1 with pieceStart := op.isPiece } := by
  unfold translateStep at h
  split at h
  · cases h
  · obtain ⟨st1, hop, hst1⟩ := bind_ok h
    cases hst1
    exact ⟨st1, hop, rfl⟩

/-- An operation that does not end a piece. -/
theorem Follows.op {values s s' : List Word} {op : DwOp}
    (h : Follows env st pending values s) (hfits : s.length + 1 < 2 ^ 32) (hpiece : op.isPiece = false)
    (hclean : cleanOp pending s op = true) (hst : translateStep input bias needFb st op = .ok st')
    (hs : dwarfOp env bias op s = some s') :
    Follows env st' (pendingAfter input pending op) values s' := by
  obtain ⟨P, hstands, hpieces⟩ := h
  obtain ⟨st1, hop, rfl⟩ := translateStep_ok hst
  exact ⟨P, (hstands.translateOp hfits hpiece hclean hop hs).flags _ _ _, hpieces⟩

theorem Follows.piece {values : List Word} {size : Nat} (h : Follows env st pending values (v :: s))
    (hst : translateStep input bias needFb st (.piece size) = .ok st') :
    Follows env st' input.pending (values ++ [v]) (input.stack env) := by
  obtain ⟨P, hstands, hpieces⟩ := h
  obtain ⟨st1, hop, rfl⟩ := translateStep_ok hst
  rw [translateOp] at hop
  split at hop
  · cases hop
  · obtain ⟨loc, hloc, hreset⟩ := bind_ok hop
    cases hreset
    refine ⟨_, (stands_reset st.maxStack (st.pieces ++ [(loc, size)])).flags _ _ _, ?_⟩
    rw [hstands.pieces, List.map_append, List.map_append, hpieces]
    show _ ++ [loc.value env] = _ ++ [some v]
    rw [hstands.finish hloc]

/-- Away from `DW_OP_piece` a step is the operation on the stack. -/
theorem dwarfStep_of_not_piece {op : DwOp} (h : op.isPiece = false) (values s : List Word) :
    dwarfStep env bias input values s op = (dwarfOp env bias op s).map fun s' => (values, s') := by
  cases op <;> first | rfl | cases h

/-- The stack after a step does not depend on the pieces before it. -/
theorem dwarfStep_nil {op : DwOp} {values values' s s' : List Word}
    (h : dwarfStep env bias input values s op = some (values', s')) :
    ∃ values'', dwarfStep env bias input [] s op = some (values'', s') := by
  cases hp : op.isPiece with
  | false =>
    rw [dwarfStep_of_not_piece hp] at h ⊢
    obtain ⟨t, ht, heq⟩ := map_eq_some_iff.mp h
    cases heq
    exact ⟨[], by rw [ht]; rfl⟩
  | true =>
    cases op <;> try cases hp
    obtain ⟨v, hv, heq⟩ := map_eq_some_iff.mp h
    cases heq
    exact ⟨[v], map_eq_some_iff.mpr ⟨v, hv, rfl⟩⟩

theorem Follows.step {values values' s s' : List Word} {op : DwOp}
    (h : Follows env st pending values s) (hfits : s.length + 1 < 2 ^ 32)
    (hclean : cleanOp pending s op = true) (hst : translateStep input bias needFb st op = .ok st')
    (hs : dwarfStep env bias input values s op = some (values', s')) :
    Follows env st' (pendingAfter input pending op) values' s' := by
  cases hp : op.isPiece with
  | false =>
    rw [dwarfStep_of_not_piece hp] at hs
    obtain ⟨t, ht, heq⟩ := map_eq_some_iff.mp hs
    cases heq
    exact h.op hfits hp hclean hst ht
  | true =>
    cases op <;> try cases hp
    obtain ⟨v, hv, heq⟩ := map_eq_some_iff.mp hs
    obtain ⟨t, rfl⟩ := List.head?_eq_some_iff.mp hv
    cases heq
    exact h.piece hst

/-- One round of the loop: the operation is before the target of a skip, or it is translated. -/
theorem translateLoop_cons {skipTo : Option Word} {insn : DwInsn} {rest : List DwInsn}
    (h : translateLoop input bias needFb st skipTo (insn :: rest) = .ok st') :
    (skipTo.any (insn.offset < ·) = true ∧ translateLoop input bias needFb st skipTo rest = .ok st') ∨
      (skipTo.any (insn.offset < ·) = false ∧ ∃ st1, translateStep input bias needFb st insn.op = .ok st1 ∧
        translateLoop input bias needFb st1 insn.target rest = .ok st') := by
  cases skipTo with
  | none =>
    obtain ⟨st1, hstep, hrest⟩ := bind_ok h
    exact .inr ⟨rfl, st1, hstep, hrest⟩
  | some target =>
    by_cases hlt : insn.offset < target
    · left
      rw [translateLoop, if_pos hlt] at h
      exact ⟨decide_eq_true hlt, h⟩
    · right
      rw [translateLoop, if_neg hlt] at h
      split at h
      · cases h
      · obtain ⟨st1, hstep, hrest⟩ := bind_ok h
        exact ⟨decide_eq_false hlt, st1, hstep, hrest⟩

theorem Follows.locations {values s result : List Word} (h : Follows env st pending values s)
    (hresult : (if values = [] then s.head?.map ([·]) else some values) = some result)
    {locs : List Located} (hlocs : st.locations = .ok locs) :
    locs.map (Located.value env) = result.map some := by
  obtain ⟨P, hstands, hpieces⟩ := h
  have hP := hstands.pieces
  subst hP
  by_cases hnil : values = []
  · have hst : st.pieces = [] := by simpa [hnil] using hpieces
    rw [if_pos hnil] at hresult
    rw [TState.locations, if_pos hst] at hlocs
    obtain ⟨loc, hloc, rfl⟩ := map_ok hlocs
    obtain ⟨v, hv, rfl⟩ := map_eq_some_iff.mp hresult
    obtain ⟨t, rfl⟩ := List.head?_eq_some_iff.mp hv
    show [loc.value env] = [some v]
    rw [hstands.finish hloc]
  · have hst : st.pieces ≠ [] := by
      intro hst
      rw [hst] at hpieces
      exact hnil (List.map_eq_nil_iff.mp hpieces.symm)
    rw [if_neg hnil] at hresult
    rw [TState.locations, if_neg hst] at hlocs
    cases hresult
    split at hlocs
    · cases hlocs
      rw [← hpieces, List.map_map]
      rfl
    · cases hlocs

theorem Follows.loop {expr : List DwInsn} {values s result : List Word} {skipTo : Option Word}
    (h : Follows env st pending values s)
    (hclean : cleanLoop env bias input pending s skipTo expr = true)
    (hst : translateLoop input bias needFb st skipTo expr = .ok st')
    (hresult : dwarfLoop env bias input values s skipTo expr = some result) {locs : List Located}
    (hlocs : st'.locations = .ok locs) : locs.map (Located.value env) = result.map some := by
  induction expr generalizing st pending values s skipTo with
  | nil =>
    cases skipTo with
    | some target => cases hst
    | none =>
      cases hst
      exact h.locations hresult hlocs
  | cons insn rest ih =>
    rcases translateLoop_cons hst with ⟨hskip, hrest⟩ | ⟨hskip, st1, hstep, hrest⟩
    · rw [cleanLoop, if_pos hskip] at hclean
      rw [dwarfLoop, if_pos hskip] at hresult
      exact ih h hclean hrest hresult
    · have hskip' : ¬skipTo.any (insn.offset < ·) = true := by simp [hskip]
      rw [cleanLoop, if_neg hskip', Bool.and_eq_true, Bool.and_eq_true] at hclean
      obtain ⟨⟨hfits, hop⟩, hclean⟩ := hclean
      rw [dwarfLoop, if_neg hskip'] at hresult
      split at hresult
      · cases hresult
      · cases hs : dwarfStep env bias input values s insn.op with
        | none =>
          rw [hs] at hresult
          cases hresult
        | some p =>
          obtain ⟨values'', hs'⟩ := dwarfStep_nil hs
          rw [hs] at hresult
          rw [hs'] at hclean
          exact ih (h.step (of_decide_eq_true hfits) hop hstep hs) hclean hrest hresult

end Sound

/-- Every register holds 40, and the word at an address is its double. -/
def sampleEnv : Env where
  reg _ := 40
  frameBase := 100
  mem _ a := some (a + a)
  xmem _ a _ := some (a + a)
  address a := a
  input := 0

/-- Operations of one byte each. -/
def insns (ops : List DwOp) : List DwInsn := ops.mapIdx fun i op => ⟨BitVec.ofNat 64 i, op⟩

/-- The word at `reg5 + 2` less 4, and a register of its own. -/
def sampleExpr : List DwInsn :=
  insns [.lit 4, .breg 5 2, .deref, .swap, .bin .minus, .un .abs, .stackValue, .piece 8, .reg 3, .piece 8]

end Systemtap.Dwarf
