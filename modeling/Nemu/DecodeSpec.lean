import Nemu.Decode

namespace Nemu

set_option autoImplicit true

/-- The `mmu_mode` that the decoder gives to a memory access. -/
def ExecId.mmuMode : ExecId → Option MmuMode
  | .load _ _ m | .store _ m | .fload _ m | .fstore _ m | .vector m => some m
  | _ => none

/-- An access of the instruction is made with `m`, or with the mode current at that time. -/
def ExecId.Uses (id : ExecId) (m : MmuMode) : Prop := id.mmuMode = none ∨ id.mmuMode = some m

theorem ExecId.Uses.ite {a b : ExecId} [Decidable p] (ha : a.Uses m) (hb : b.Uses m) :
    (if p then a else b).Uses m := by
  split
  · exact ha
  · exact hb

/-- A decoded instruction stands where it was fetched, and its accesses use the MMU mode that the
decoder saw. -/
structure Placed (f : Fetched) (d : Decode) : Prop where
  pc : d.pc = f.pc
  snpc : d.snpc = f.snpc
  uses : d.id.Uses f.mmuMode

theorem Placed.ite {a b : Decode} [Decidable p] (ha : Placed f a) (hb : Placed f b) :
    Placed f (if p then a else b) := by
  split
  · exact ha
  · exact hb

section Tables

variable {P : Platform} {f : Fetched}

theorem tableLoad_uses : (tableLoad f).Uses f.mmuMode := by
  unfold tableLoad
  split
  all_goals first | exact .inr rfl | exact .inl rfl

theorem tableStore_uses : (tableStore f).Uses f.mmuMode := by
  unfold tableStore
  split
  all_goals first | exact .inr rfl | exact .inl rfl

theorem tableCAddiDispatch_uses : (tableCAddiDispatch imm).Uses m := by
  unfold tableCAddiDispatch
  repeat' apply ExecId.Uses.ite
  all_goals exact .inl rfl

theorem tableAddiDispatch_uses : (tableAddiDispatch f).Uses m := by
  unfold tableAddiDispatch
  repeat' apply ExecId.Uses.ite
  all_goals exact .inl rfl

theorem tableOpImmExt_uses : (tableOpImmExt P f).Uses m := by
  unfold tableOpImmExt
  repeat' apply ExecId.Uses.ite
  all_goals exact .inl rfl

theorem tableOpImm_uses : (tableOpImm P f).Uses m := by
  unfold tableOpImm
  refine .ite tableCAddiDispatch_uses (.ite (.inl rfl) (.ite (.inl rfl) (.ite (.inl rfl)
    (.ite (.inl rfl) (.ite tableAddiDispatch_uses ?_)))))
  repeat' apply ExecId.Uses.ite
  all_goals first | exact tableOpImmExt_uses | exact .inl rfl

theorem tableOpImm32_uses : (tableOpImm32 P f).Uses m := by
  unfold tableOpImm32
  repeat' apply ExecId.Uses.ite
  all_goals exact .inl rfl

theorem tableOpExt_uses : (tableOpExt P f).Uses m := by
  unfold tableOpExt
  repeat' apply ExecId.Uses.ite
  all_goals exact .inl rfl

theorem tableOp_uses : (tableOp P f).Uses m := by
  unfold tableOp
  repeat' apply ExecId.Uses.ite
  all_goals first | exact tableOpExt_uses | exact .inl rfl

theorem tableOp32_uses : (tableOp32 P f).Uses m := by
  unfold tableOp32
  repeat' apply ExecId.Uses.ite
  all_goals exact .inl rfl

theorem tableRvm_uses : (tableRvm f).Uses m := by
  unfold tableRvm
  split <;> exact .inl rfl

theorem tableRvm32_uses : (tableRvm32 f).Uses m := by
  unfold tableRvm32
  split <;> exact .inl rfl

theorem tableBranch_uses : (tableBranch f).Uses m := by
  unfold tableBranch
  repeat' apply ExecId.Uses.ite
  all_goals exact .inl rfl

theorem tableJalDispatch_uses : (tableJalDispatch f).Uses m := by
  unfold tableJalDispatch
  repeat' apply ExecId.Uses.ite
  all_goals exact .inl rfl

theorem tableJalrDispatch_uses : (tableJalrDispatch f).Uses m := by
  unfold tableJalrDispatch
  repeat' apply ExecId.Uses.ite
  all_goals exact .inl rfl

theorem tableMemFence_uses : (tableMemFence f).Uses m := by
  unfold tableMemFence
  repeat' apply ExecId.Uses.ite
  all_goals exact .inl rfl

theorem tableAtomic_uses : (tableAtomic P f).Uses m := by
  unfold tableAtomic
  repeat' apply ExecId.Uses.ite
  all_goals exact .inl rfl

theorem tableSystem_uses : (tableSystem P f).Uses m := by
  unfold tableSystem
  repeat' apply ExecId.Uses.ite
  all_goals exact .inl rfl

theorem tableFldst_uses (h1 : a.Uses f.mmuMode) (h2 : b.Uses f.mmuMode) :
    (tableFldst P f a b).Uses f.mmuMode :=
  .ite h1 (.ite h2 (.ite (.inr rfl) (.inl rfl)))

theorem tableFload_uses : (tableFload P f).Uses f.mmuMode := tableFldst_uses (.inr rfl) (.inr rfl)

theorem tableFstore_uses : (tableFstore P f).Uses f.mmuMode := tableFldst_uses (.inr rfl) (.inr rfl)

theorem tableFmaddDispatch_uses : (tableFmaddDispatch f).Uses m := by
  unfold tableFmaddDispatch
  repeat' apply ExecId.Uses.ite
  all_goals exact .inl rfl

theorem tableOpFpD_placed : Placed f (tableOpFpD f) := by
  unfold tableOpFpD
  repeat' apply Placed.ite
  all_goals exact ⟨rfl, rfl, .inl rfl⟩

theorem tableOpFp_placed : Placed f (tableOpFp f) := by
  unfold tableOpFp
  repeat' apply Placed.ite
  all_goals first | exact tableOpFpD_placed | exact ⟨rfl, rfl, .inl rfl⟩

theorem tableMain_placed : Placed f (tableMain P f) := by
  unfold tableMain
  refine .ite ⟨rfl, rfl, tableLoad_uses⟩ <| .ite ⟨rfl, rfl, tableFload_uses⟩ <|
    .ite ⟨rfl, rfl, .inl rfl⟩ <| .ite ⟨rfl, rfl, .inl rfl⟩ <|
    .ite ⟨rfl, rfl, tableMemFence_uses⟩ <| .ite ⟨rfl, rfl, tableOpImm_uses⟩ <|
    .ite ⟨rfl, rfl, .inl rfl⟩ <| .ite ⟨rfl, rfl, tableOpImm32_uses⟩ <|
    .ite ⟨rfl, rfl, tableStore_uses⟩ <| .ite ⟨rfl, rfl, tableFstore_uses⟩ <|
    .ite ⟨rfl, rfl, tableAtomic_uses⟩ <| .ite ⟨rfl, rfl, tableRvm_uses⟩ <|
    .ite ⟨rfl, rfl, tableOp_uses⟩ <| .ite ⟨rfl, rfl, .inl rfl⟩ <|
    .ite ⟨rfl, rfl, tableRvm32_uses⟩ <| .ite ⟨rfl, rfl, tableOp32_uses⟩ <|
    .ite ⟨rfl, rfl, tableFmaddDispatch_uses⟩ <| .ite tableOpFp_placed <|
    .ite ⟨rfl, rfl, .inr rfl⟩ <| .ite ⟨rfl, rfl, tableBranch_uses⟩ <|
    .ite ⟨rfl, rfl, tableJalrDispatch_uses⟩ <| .ite ⟨rfl, rfl, .inl rfl⟩ <|
    .ite ⟨rfl, rfl, tableJalDispatch_uses⟩ <| .ite ⟨rfl, rfl, tableSystem_uses⟩ ?_
  exact ⟨rfl, rfl, .inl rfl⟩

end Tables

section Compressed

variable {P : Platform} {f : Fetched}

/-- The errors of the decoder: an illegal instruction, or its own assertion. -/
def DecodesAt (f : Fetched) : Except Stop Decode → Prop
  | .ok d => Placed f d
  | .error e => e = .exception ⟨.II, none, .plain⟩ ∨ e = .abort .decode

theorem DecodesAt.ite {a b : Except Stop Decode} [Decidable p] (ha : DecodesAt f a)
    (hb : DecodesAt f b) : DecodesAt f (if p then a else b) := by
  split
  · exact ha
  · exact hb

theorem tableCAddiwDispatch_uses : (tableCAddiwDispatch P f).Uses m :=
  .ite (.inl rfl) (.inl rfl)

theorem tableCLiDispatch_uses : (tableCLiDispatch f).Uses m :=
  .ite (.inl rfl) (.ite (.inl rfl) (.inl rfl))

theorem tableRvcQ1Compute_placed : Placed f (tableRvcQ1Compute f) := by
  unfold tableRvcQ1Compute
  repeat' apply Placed.ite
  all_goals exact ⟨rfl, rfl, .inl rfl⟩

theorem decodeCJR_decodes {e : ExecId} (h : e.Uses f.mmuMode) : DecodesAt f (decodeCJR P f e) :=
  .ite (.inl rfl) ⟨rfl, rfl, h⟩

theorem decodeCLxSP_decodes {e : ExecId} (h : e.Uses f.mmuMode) :
    DecodesAt f (decodeCLxSP P f rotate isFp e) :=
  .ite (.inl rfl) ⟨rfl, rfl, h⟩

theorem tableRvcQ2Misc_decodes : DecodesAt f (tableRvcQ2Misc P f) := by
  unfold tableRvcQ2Misc
  dsimp only
  refine .ite (.ite (decodeCJR_decodes (.inl rfl)) (.ite (decodeCJR_decodes (.inl rfl)) ?_)) ?_
  · exact ⟨rfl, rfl, .inl rfl⟩
  · repeat' apply DecodesAt.ite
    all_goals exact ⟨rfl, rfl, .inl rfl⟩

theorem tableRvcQ0_decodes : DecodesAt f (tableRvcQ0 P f) := by
  unfold tableRvcQ0
  repeat' apply DecodesAt.ite
  all_goals first | exact ⟨rfl, rfl, .inl rfl⟩ | exact ⟨rfl, rfl, .inr rfl⟩

theorem tableRvcQ1_decodes : DecodesAt f (tableRvcQ1 P f) := by
  unfold tableRvcQ1
  split
  · exact ⟨rfl, rfl, tableCAddiDispatch_uses⟩
  · exact ⟨rfl, rfl, tableCAddiwDispatch_uses⟩
  · exact ⟨rfl, rfl, tableCLiDispatch_uses⟩
  · refine .ite (.ite (.ite (.inl rfl) (.inr rfl)) ?_) (.ite (.inl rfl) ?_)
    · exact ⟨rfl, rfl, .inl rfl⟩
    · exact ⟨rfl, rfl, .inl rfl⟩
  · exact tableRvcQ1Compute_placed
  · exact ⟨rfl, rfl, .inl rfl⟩
  · exact ⟨rfl, rfl, .inl rfl⟩
  · exact ⟨rfl, rfl, .inl rfl⟩

theorem tableRvcQ2_decodes : DecodesAt f (tableRvcQ2 P f) := by
  unfold tableRvcQ2
  refine .ite ⟨rfl, rfl, .inl rfl⟩ (.ite (decodeCLxSP_decodes (.inr rfl))
    (.ite (decodeCLxSP_decodes (.inr rfl)) (.ite (decodeCLxSP_decodes (.inr rfl))
      (.ite tableRvcQ2Misc_decodes ?_))))
  repeat' apply DecodesAt.ite
  all_goals first | exact ⟨rfl, rfl, .inl rfl⟩ | exact ⟨rfl, rfl, .inr rfl⟩

theorem tableRvc_decodes : DecodesAt f (tableRvc P f) :=
  .ite tableRvcQ0_decodes (.ite tableRvcQ1_decodes tableRvcQ2_decodes)

end Compressed

end Nemu
