import Nemu.Vcompute

namespace Nemu

open Effect

set_option autoImplicit true

/-- An instruction that writes elements of SEW bits, for the operands that a whole number of registers
allows: the groups are aligned, and with a mask the destination is not the mask register. -/
structure Elementwise (m : Machine) (d : VDecode) : Prop where
  configured : Configured m
  src2 : m.vlmul ≤ 3 → Aligned m.vlmul d.src2
  src1 : m.vlmul ≤ 3 → d.srcVmode = .vv → Aligned m.vlmul d.src1
  dest : m.vlmul ≤ 3 → Aligned m.vlmul d.dest
  mask : d.vm = false → d.dest ≠ 0

/-- The executors that store an element for each one that they read. -/
structure Arthi.Plain (a : Arthi) : Prop where
  opcode : a.opcode ≠ .merge
  widening : a.widening = 0
  narrow : a.narrow = 0
  destMask : a.destMask = false

/-- The elements that an instruction computes. -/
def Active (a : Arthi) (d : VDecode) (m : Machine) (i : Nat) : Prop := ¬ m.Skips a d i

instance : DecidablePred (Active a d m) := fun i => inferInstanceAs (Decidable (¬ m.Skips a d i))

theorem Configured.vl_le {m : Machine} (hc : Configured m) : (m.csr .vl).toNat ≤ vlen := by
  by_cases hmul : m.vlmul ≤ 3
  · exact hc.vl.trans (vlmaxOf_le hc.sew hmul)
  · have hle : vlmaxOf m.vsew m.vlmul ≤ vlen := by
      unfold vlmaxOf
      rw [if_neg hmul]
      exact Nat.div_le_self _ _
    exact hc.vl.trans hle

theorem getMask_eq {s : VState} {i : Nat} (hi : i < vlen) : getMask 0 i s = .ok (s.cpu.maskWord i) s := by
  unfold getMask
  rw [get_bind, if_pos hi]
  rfl

theorem maskWord_eq_zero {m : Machine} {i : Nat} : m.maskWord i = 0 ↔ m.maskBit 0 i = false := by
  unfold Machine.maskWord
  cases m.maskBit 0 i <;> decide

section Before

variable {w n i : Nat} {s u : VState} {place : Nat → BitVec 5 × Nat} {active : Nat → Prop}
  [DecidablePred active] {out : Nat → Option (BitVec w)} {x : BitVec w} {more : List Int}

theorem Before.reads (hu : Before n s place active out i u) (hr : ∀ r ∈ more, 0 ≤ r ∧ r < (n : Int)) :
    Before n s place active out i ⟨u.cpu, u.reads ++ more⟩ := by
  refine ⟨hu.1, fun r hr' => ?_⟩
  rcases List.mem_append.mp hr' with h | h
  · exact hu.2 r h
  · exact .inr (hr r h)

theorem Before.skip (hu : Before n s place active out i u) (hi : (s.cpu.csr .vstart).toNat ≤ i)
    (h : ¬ active i) : Before n s place active out (i + 1) u := by
  refine ⟨?_, hu.2⟩
  rw [vrBefore_step_skip hi h]
  exact hu.1

theorem Before.write (hu : Before n s place active out i u) (hi : (s.cpu.csr .vstart).toNat ≤ i)
    (h : active i) (hx : out i = some x) :
    Before n s place active out (i + 1)
      { u with cpu := { u.cpu with vr := Packed.set u.cpu.vr (place i) x } } := by
  refine ⟨?_, hu.2⟩
  rw [vrBefore_step_write hi h hx, hu.1]

end Before

section Groups

variable {m : Machine} {d : VDecode} {i k : Nat}

theorem Elementwise.grouped (h : Elementwise m d) (hmul : m.vlmul ≤ 3) : Grouped d m :=
  ⟨h.configured.sew, hmul, h.src2 hmul, h.src1 hmul⟩

theorem elementwise_single (hmul : m.vlmul = 0) (hc : Configured m) (hvm : d.vm = true) : Elementwise m d := by
  have hall : ∀ reg, Aligned m.vlmul reg := by
    intro reg
    rw [hmul]
    exact aligned_zero reg
  constructor
  · exact hc
  · exact fun _ => hall d.src2
  · exact fun _ _ => hall d.src1
  · exact fun _ => hall d.dest
  · intro h
    cases h.symm.trans hvm

theorem Elementwise.fits (h : Elementwise m d) (i : Nat) :
    (slot m.vsew d.dest i).2 * sew m.vsew + sew m.vsew ≤ 128 := slot_fits h.configured.sew d.dest i

theorem Elementwise.inj (h : Elementwise m d) (hmul : m.vlmul ≤ 3) (hi : m.Body i) (hk : m.Body k)
    (heq : slot m.vsew d.dest i = slot m.vsew d.dest k) : i = k := by
  have h1 := hi.lt_vlmax h.configured
  have h2 := hk.lt_vlmax h.configured
  rw [vlmaxOf_eq h.configured.sew hmul] at h1 h2
  exact slot_inj h.configured.sew hmul (h.dest hmul) h1 h2 heq

theorem slot_apart {vsew vlmul j : Nat} {reg dest : BitVec 5} (hsew : vsew ≤ 3) (hmul : vlmul ≤ 3)
    (hr : Aligned vlmul reg) (hd : Aligned vlmul dest) (hj : j < vlmaxOf vsew vlmul)
    (hk : k < vlmaxOf vsew vlmul) (hne : reg = dest → j ≠ k) :
    Packed.Apart (sew vsew) (slot vsew reg j) (sew vsew) (slot vsew dest k) := by
  rw [vlmaxOf_eq hsew hmul] at hj hk
  apply Packed.apart_of_ne
  by_cases heq : reg = dest
  · rw [heq]
    exact fun h => hne heq (slot_inj hsew hmul hd hj hk h)
  · exact slot_ne_of_ne hsew hmul hr hd heq hj hk

theorem slot_ne_zero {vsew vlmul : Nat} {dest : BitVec 5} (hsew : vsew ≤ 3) (hmul : vlmul ≤ 3)
    (hd : Aligned vlmul dest) (hk : k < vlmaxOf vsew vlmul) (hne : dest ≠ 0) : (slot vsew dest k).1 ≠ 0 := by
  rw [vlmaxOf_eq hsew hmul] at hk
  intro h
  have hplace := slot_group hsew hmul hd hk
  rw [h] at hplace
  have hzero : dest.toNat = 0 := by
    generalize k / elemNum vsew = q at hplace
    exact Nat.eq_zero_of_add_eq_zero_right hplace.symm
  exact hne (BitVec.eq_of_toNat_eq hzero)

/-- What comes before the round with index `i` has not changed its operands. -/
theorem Elementwise.undisturbed (h : Elementwise m d) (hmul : m.vlmul ≤ 3) (hi : m.Body i) (active : Nat → Prop) :
    Undisturbed m d (sew m.vsew) (slot m.vsew d.dest) active i := by
  have hsew := h.configured.sew
  have hlt := hi.lt_vlmax h.configured
  constructor
  · intro k _ hk _
    exact slot_apart hsew hmul (h.src2 hmul) (h.dest hmul) hlt (hk.trans hlt) fun _ => Nat.ne_of_gt hk
  · intro hvv k _ hk _
    exact slot_apart hsew hmul (h.src1 hmul hvv) (h.dest hmul) hlt (hk.trans hlt) fun _ => Nat.ne_of_gt hk
  · intro hvm k _ hk _ hreg
    exact absurd hreg.symm (slot_ne_zero hsew hmul (h.dest hmul) (hk.trans hlt) (h.mask hvm))

end Groups

section Rounds

variable {a : Arthi} {d : VDecode} {s u : VState} {i n : Nat} {x : Word} {c : Option Word}
  {out : Nat → Option (BitVec (sew s.cpu.vsew))}

theorem Arthi.Plain.store (hp : a.Plain) {vsew vlmul : Nat} (hsew : vsew ≤ 3) (hmul : vlmul ≤ 3)
    (hd : Aligned vlmul d.dest) (hi : i < vlmaxOf vsew vlmul) :
    vopStore a d vsew vlmul i x u = .ok ()
      ⟨{ u.cpu with vr := Packed.set u.cpu.vr (slot vsew d.dest i) (x.setWidth (sew vsew)) }, u.reads⟩ := by
  rw [vlmaxOf_eq hsew hmul] at hi
  unfold vopStore
  rw [hp.destMask, hp.widening]
  exact setVreg_eq (vregPlace_group hsew hmul hd hi)

theorem element_round (hp : a.Plain) (hl : Elementwise s.cpu d) (hmul : s.cpu.vlmul ≤ 3) (hi : s.cpu.Body i)
    (hu : Before n s (slot s.cpu.vsew d.dest) (Active a d s.cpu) out i u)
    (hn : vlmaxOf s.cpu.vsew s.cpu.vlmul ≤ n)
    (hvalue : ∀ x, c = some x → ∀ reads, ∃ more, (∀ r ∈ more, 0 ≤ r ∧ r < (n : Int)) ∧
      vopValue a d s.cpu.vsew s.cpu.vlmul n i (s.cpu.csr .vl) (u.cpu.maskWord i)
        (s.cpu.vs2Value d a.isSigned i) (s.cpu.srcValue d a.isSigned i) ⟨u.cpu, reads⟩ =
          .ok x ⟨u.cpu, reads ++ more⟩)
    (hstop : c = none → ∀ reads y t,
      vopValue a d s.cpu.vsew s.cpu.vlmul n i (s.cpu.csr .vl) (u.cpu.maskWord i)
        (s.cpu.vs2Value d a.isSigned i) (s.cpu.srcValue d a.isSigned i) ⟨u.cpu, reads⟩ ≠ .ok y t) :
    RoundGives a d n i u (slot s.cpu.vsew d.dest i) (Active a d s.cpu i)
      (c.map fun x => x.setWidth (sew s.cpu.vsew)) := by
  have hlt := hi.lt_vlmax hl.configured
  have hround := vopRound_before hl.configured (hl.grouped hmul) hp.narrow hp.opcode hi hu
    (hl.undisturbed hmul hi (Active a d s.cpu))
  constructor
  · intro hskip
    rw [if_pos (not_not.mp hskip)] at hround
    exact hround
  · intro hact y hy
    obtain ⟨x, hx, rfl⟩ := Option.map_eq_some_iff.mp hy
    obtain ⟨more, hlow, hrun⟩ := hvalue x hx (u.reads ++ d.fetches i)
    rw [if_neg hact] at hround
    refine ⟨d.fetches i ++ more, ?_, ?_⟩
    · intro r hr
      rcases List.mem_append.mp hr with hr | hr
      · exact fetches_bounds (Nat.lt_of_lt_of_le hlt hn) r hr
      · exact hlow r hr
    · rw [hround, bind_ok hrun, hp.store hl.configured.sew hmul (hl.dest hmul) hlt, List.append_assoc]
  · intro hact hnone u' hu'
    rw [if_neg hact] at hround
    obtain ⟨y, t, hrun, -⟩ := ok_of_bind (hround.symm.trans hu')
    exact hstop (Option.map_eq_none_iff.mp hnone) _ y t hrun

theorem element_rounds {m : Machine} {c : Nat → Option Word} {stop : VStop} (hp : a.Plain)
    (hl : Elementwise m d) (hmul : m.vlmul ≤ 3)
    (hvalue : ∀ i mask, vopValue a d m.vsew m.vlmul (vlmaxOf m.vsew m.vlmul) i (m.csr .vl) mask
      (m.vs2Value d a.isSigned i) (m.srcValue d a.isSigned i) = (c i).elim (throw stop) pure) :
    Rounds a d ⟨m, []⟩ (slot m.vsew d.dest) (Active a d m)
      fun i => (c i).map fun x => x.setWidth (sew m.vsew) := by
  constructor
  · exact fun i _ => hl.fits i
  · exact fun i k hi hk heq => hl.inj hmul hi hk heq
  · intro i u hi hu
    apply element_round (s := ⟨m, []⟩) hp hl hmul hi hu (Nat.le_refl _)
    · intro x hx reads
      refine ⟨[], fun r hr => absurd hr List.not_mem_nil, ?_⟩
      rw [hvalue, hx, List.append_nil]
      rfl
    · intro hnone reads y t hrun
      rw [hvalue, hnone] at hrun
      cases hrun

end Rounds

end Nemu
