import Nemu.AccessEffect

namespace Nemu

open Effect

set_option autoImplicit true

variable {P : Platform}

/-- The assertions on the way of an access, and the device that does not answer. -/
def Abort.fromAccess : Abort → Bool
  | .permissionMode | .permissionAmo | .hostLength | .device => true
  | _ => false

/-- The ways in which an access to memory stops. -/
def Stop.fromAccess : Stop → Bool
  | .exception f => f.cause ≠ .II
  | .abort a => a.fromAccess
  | .execEnd => false

def accessStops : Effect Stop Machine := inv (fun _ => True) fun e _ => e.fromAccess = true

section Chain

theorem update_fromAccess {g : Machine → Machine} : accessStops.Within (modify g : Exec PUnit) :=
  .update fun _ _ => trivial

theorem abort_fromAccess (h : a.fromAccess = true) : accessStops.Within (throw (.abort a) : Exec α) :=
  .raise fun _ _ => h

theorem raise_fromAccess {x : Fault} (h : x.cause ≠ .II) : accessStops.Within (raise x : Exec α) :=
  .raise fun _ _ => decide_eq_true h

theorem assert_fromAccess (p : Prop) [Decidable p] (h : a.fromAccess = true) :
    accessStops.Within (assert p a) := by
  unfold assert
  split
  · exact .ret _ _
  · exact abort_fromAccess h

theorem faultAt_fromAccess (h : ex ≠ .II) : accessStops.Within (faultAt P ex va : Exec α) :=
  .bind (.read _) fun _ => .bind update_fromAccess fun _ => raise_fromAccess h

theorem faultIf_fromAccess (b : Prop) [Decidable b] (h : ex ≠ .II) (h' : ex' ≠ .II) :
    accessStops.Within (faultAt P (if b then ex else ex') va : Exec α) := by
  split
  · exact faultAt_fromAccess h
  · exact faultAt_fromAccess h'

theorem dasicsFault_fromAccess (mode : Mode) :
    accessStops.Within (dasicsFault P (dasicsEx mode) reason va : Exec α) :=
  .bind update_fromAccess fun _ => faultIf_fromAccess _ (by decide) (by decide)

theorem raiseAccessFault_fromAccess (h : ex ≠ .II) : accessStops.Within (raiseAccessFault P ex va : Exec α) :=
  .bind update_fromAccess fun _ => faultAt_fromAccess h

theorem raiseReadAccessFault_fromAccess :
    accessStops.Within (raiseReadAccessFault P type va : Exec α) := by
  refine .bind (.read _) fun s => ?_
  repeat' split
  all_goals exact raiseAccessFault_fromAccess (by decide)

theorem pmemRead_fromAccess : accessStops.Within (pmemRead addr len) :=
  .bind (assert_fromAccess _ rfl) fun _ => .bind (.read _) fun _ => .ret _ _

theorem pmemWrite_fromAccess : accessStops.Within (pmemWrite addr len data) :=
  .bind (assert_fromAccess _ rfl) fun _ => update_fromAccess

theorem mmioRead_fromAccess : accessStops.Within (mmioRead P addr len) := by
  refine .bind (.read _) fun s => ?_
  split
  · exact abort_fromAccess rfl
  · exact .bind update_fromAccess fun _ => .ret _ _

theorem mmioWrite_fromAccess : accessStops.Within (mmioWrite P addr len data) := by
  refine .bind (.read _) fun s => ?_
  split
  · exact abort_fromAccess rfl
  · exact update_fromAccess

theorem paddrRead_fromAccess : accessStops.Within (paddrRead P pa len type mode va) := by
  refine .bind (.read _) fun s => ?_
  repeat' split
  all_goals first
    | exact raiseReadAccessFault_fromAccess
    | exact pmemRead_fromAccess
    | exact mmioRead_fromAccess
    | exact .ret _ _

theorem paddrWrite_fromAccess : accessStops.Within (paddrWrite P pa len data mode va) := by
  refine .bind (.read _) fun s => ?_
  repeat' split
  all_goals first
    | exact raiseAccessFault_fromAccess (by decide)
    | exact pmemWrite_fromAccess
    | exact mmioWrite_fromAccess
    | exact .ret _ _

theorem checkPermission_fromAccess : accessStops.Within (checkPermission P pte b va type) := by
  refine .bind (.read _) fun s => .bind (assert_fromAccess _ rfl) fun _ => ?_
  dsimp only
  cases type with
  | ifetch =>
    dsimp only
    split
    · exact .bind (assert_fromAccess _ rfl) fun _ => faultAt_fromAccess (by decide)
    · exact .ret _ _
  | read =>
    dsimp only
    split
    · exact .bind update_fromAccess fun _ => faultIf_fromAccess _ (by decide) (by decide)
    split
    · exact dasicsFault_fromAccess _
    · exact .ret _ _
  | write | ifetchRead | writeRead =>
    dsimp only
    split
    · exact .bind update_fromAccess fun _ => faultAt_fromAccess (by decide)
    split
    · exact dasicsFault_fromAccess _
    · exact .ret _ _

theorem ptw_fromAccess : accessStops.Within (ptw P va type) :=
  ptw_within (fun _ => paddrRead_fromAccess) (fun _ _ => checkPermission_fromAccess)
    (ptwUpdateAd_within fun _ _ _ => paddrWrite_fromAccess)

theorem forceRaisePfRecord_fromAccess : accessStops.Within (forceRaisePfRecord va type) :=
  .bind (.read _) fun _ => .bind update_fromAccess fun _ => .ret _ _

theorem forceRaisePf_fromAccess : accessStops.Within (forceRaisePf P va type) :=
  forceRaisePf_within forceRaisePfRecord_fromAccess
    (fun _ _ => .bind update_fromAccess fun _ => raise_fromAccess Exc.noConfusion) (faultAt_fromAccess (by decide))
    (faultAt_fromAccess (by decide))

theorem isaMmuTranslate_fromAccess : accessStops.Within (isaMmuTranslate P va type) :=
  isaMmuTranslate_within ptw_fromAccess forceRaisePf_fromAccess

theorem vaddrMmuRead_fromAccess : accessStops.Within (vaddrMmuRead P va len type) :=
  vaddrMmuRead_within (fun _ => isaMmuTranslate_fromAccess) fun _ _ _ => paddrRead_fromAccess

theorem vaddrMmuWrite_fromAccess : accessStops.Within (vaddrMmuWrite P va len data) :=
  vaddrMmuWrite_within (fun _ => isaMmuTranslate_fromAccess) fun _ _ _ _ => paddrWrite_fromAccess

theorem isaMisalignDataAddrCheck_fromAccess :
    accessStops.Within (isaMisalignDataAddrCheck P va len type) := by
  refine .bind (.read _) fun s => ?_
  split
  · exact faultIf_fromAccess _ (by decide) (by decide)
  · exact .ret _ _

theorem vaddrCheck_fromAccess : accessStops.Within (vaddrCheck P pc va len type) :=
  vaddrCheck_within (fun _ => isaMisalignDataAddrCheck_fromAccess) fun _ _ _ _ _ => dasicsFault_fromAccess _

theorem isaMmuCheck_fromAccess : accessStops.Within (isaMmuCheck P va len type) := by
  refine .bind (.read _) fun s => ?_
  dsimp only
  split
  · cases type with
    | ifetch =>
      exact .bind update_fromAccess fun _ => .bind update_fromAccess fun _ => raise_fromAccess Exc.noConfusion
    | read => exact faultIf_fromAccess _ (by decide) (by decide)
    | write | ifetchRead | writeRead => exact faultAt_fromAccess (by decide)
  split
  · exact .ret _ _
  split
  · exact faultIf_fromAccess _ (by decide) (by decide)
  · exact .ret _ _

theorem resolveMmuMode_fromAccess : accessStops.Within (resolveMmuMode P va len type m) := by
  cases m with
  | dynamic => exact isaMmuCheck_fromAccess
  | direct | translate => exact .ret _ _

theorem vaddrReadInternal_fromAccess (m : MmuMode) :
    accessStops.Within (vaddrReadInternal P pc va len type m) := by
  refine .bind vaddrCheck_fromAccess fun _ => .bind resolveMmuMode_fromAccess fun m => ?_
  split
  · exact .bind (.read _) fun s => paddrRead_fromAccess
  · exact vaddrMmuRead_fromAccess

theorem vaddrWrite_fromAccess (m : MmuMode) : accessStops.Within (vaddrWrite P pc va len data m) := by
  refine .bind vaddrCheck_fromAccess fun _ => .bind resolveMmuMode_fromAccess fun m => ?_
  split
  · exact .bind (.read _) fun s => paddrWrite_fromAccess
  · exact vaddrMmuWrite_fromAccess

end Chain

end Nemu
