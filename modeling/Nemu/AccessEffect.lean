import Nemu.Lib.Effect
import Nemu.Vaddr

namespace Nemu

open Effect

set_option autoImplicit true

section Walk

variable {P : Platform} {F : Effect Stop Machine} {va : Word} {type : MemType}

theorem ptwLoop_within (hread : ∀ pa, F.Within (paddrRead P pa 8 (ptwReadType type) .S va)) (level : Nat)
    (base : Word) : F.Within (ptwLoop P va type level base) := by
  induction level generalizing base with
  | zero =>
    unfold ptwLoop
    refine .bind (hread _) fun val => ?_
    dsimp only
    split
    · exact .ret _ _
    split
    · exact .ret _ _
    · exact .ret _ _
  | succ level ih =>
    unfold ptwLoop
    refine .bind (hread _) fun val => ?_
    dsimp only
    split
    · exact .ret _ _
    split
    · exact .ret _ _
    · exact ih _

theorem ptwWalk_within (hread : ∀ pa, F.Within (paddrRead P pa 8 (ptwReadType type) .S va)) :
    F.Within (ptwWalk P va type) := by
  refine .bind (.read _) fun s => ?_
  dsimp only
  split
  · exact ptwLoop_within hread 2 _
  · exact .ret _ _

theorem ptwUpdateAd_within (hwrite : ∀ pa val mode, F.Within (paddrWrite P pa 8 val mode va)) (pPte : Word)
    (pte : Pte) : F.Within (ptwUpdateAd P pPte pte va type) := by
  refine .bind (.read _) fun s => ?_
  split
  · exact hwrite _ _ _
  · exact .ret _ _

theorem ptw_within (hread : ∀ pa, F.Within (paddrRead P pa 8 (ptwReadType type) .S va))
    (hcheck : ∀ pte found, F.Within (checkPermission P pte found va type))
    (hupdate : ∀ pPte pte, F.Within (ptwUpdateAd P pPte pte va type)) : F.Within (ptw P va type) := by
  refine .bind (ptwWalk_within hread) fun walk => ?_
  cases walk with
  | bad pte => exact .bind (hcheck _ _) fun _ => .ret _ _
  | leaf level pPte pte =>
    refine .bind (hcheck _ _) fun _ => ?_
    split
    · exact .bind (hcheck _ _) fun _ => .ret _ _
    · exact .bind (hupdate _ _) fun _ => .ret _ _

theorem forceRaisePf_within (hrecord : F.Within (forceRaisePfRecord va type))
    (hfetch : ∀ c v, F.Within (do
      setCsr c v
      raise ⟨.IPF, some va, .forcedFetch⟩ : Exec Unit))
    (hload : F.Within (faultAt P .LPF va : Exec Unit)) (hstore : F.Within (faultAt P .SPF va : Exec Unit)) :
    F.Within (forceRaisePf P va type) := by
  have hcounted : ∀ {m : Exec Unit}, F.Within m →
      F.Within (forceRaisePfRecord va type >>= fun again => if again then pure () else m) := by
    intro m hm
    refine .bind hrecord fun again => ?_
    split
    · exact .ret _ _
    · exact hm
  refine .bind (.read _) fun s => ?_
  split
  · split
    · apply hcounted
      split
      · exact hfetch _ _
      · exact hfetch _ _
    split
    · exact hcounted hload
    split
    · exact hcounted hstore
    · exact .ret _ _
  · exact .ret _ _

theorem isaMmuTranslate_within (hptw : F.Within (ptw P va type)) (hforce : F.Within (forceRaisePf P va type)) :
    F.Within (isaMmuTranslate P va type) := by
  refine .bind hptw fun r => ?_
  split
  · exact .bind hforce fun _ => .ret _ _
  · exact .bind (.ret _ _) fun _ => .ret _ _

end Walk

section Checks

variable {P : Platform} {F : Effect Stop Machine} {va : Word} {type : MemType}

theorem dasicsLdstHelper_within (hfault : ∀ mode reason addr, reason ≠ .DFR_JF →
    F.Within (dasicsFault P (dasicsEx mode) reason addr : Exec Unit)) (pc : Word) :
    F.Within (dasicsLdstHelper P pc va len type) := by
  have hbytes : ∀ close cfg reason, reason ≠ .DFR_JF → F.Within (dasicsCheckBytes P close cfg reason va len) := by
    intro close cfg reason hreason
    refine .bind (.read _) fun s => ?_
    split
    · exact hfault _ _ _ hreason
    · exact .ret _ _
  refine .bind (.read _) fun s => ?_
  split
  · exact .ret _ _
  split
  · exact hbytes _ _ _ (by decide)
  · exact hbytes _ _ _ (by decide)
  · exact .ret _ _

theorem vaddrCheck_within (halign : P.share = true → F.Within (isaMisalignDataAddrCheck P va len type))
    (hfault : P.dasics = true → ∀ mode reason addr, reason ≠ .DFR_JF →
      F.Within (dasicsFault P (dasicsEx mode) reason addr : Exec Unit)) :
    F.Within (vaddrCheck P pc va len type) := by
  have hbounds : ∀ pc, F.Within (if P.dasics then dasicsLdstHelper P pc va len type else pure ()) := by
    intro pc
    split
    case isTrue hdasics => exact dasicsLdstHelper_within (hfault hdasics) pc
    case isFalse => exact .ret _ _
  unfold vaddrCheck
  cases pc with
  | none =>
    dsimp only
    split
    case isTrue hshare => exact .bind (halign hshare.1) fun _ => .ret _ _
    case isFalse => exact .ret _ _
  | some pc =>
    dsimp only
    split
    case isTrue hshare => exact .bind (halign hshare.1) fun _ => hbounds pc
    case isFalse => exact hbounds pc

end Checks

section Access

variable {P : Platform} {F : Effect Stop Machine} {va : Word} {type : MemType}

section Read

variable (htranslate : ∀ a, F.Within (isaMmuTranslate P a type))
  (hread : ∀ pa len mode, F.Within (paddrRead P pa len type mode va))

include htranslate hread

theorem vaddrReadCrossPage_within (n i : Nat) (data : Word) :
    F.Within (vaddrReadCrossPage P va type n i data) := by
  induction n generalizing i data with
  | zero => exact .ret _ _
  | succ n ih =>
    refine .bind (htranslate _) fun r => ?_
    split
    · exact .ret _ _
    · exact .bind (.read _) fun s => .bind (hread _ _ _) fun byte => ih _ _

theorem vaddrMmuRead_within : F.Within (vaddrMmuRead P va len type) := by
  refine .bind (htranslate va) fun r => ?_
  split
  · exact .bind (.read _) fun s => hread _ _ _
  split
  · exact vaddrReadCrossPage_within htranslate hread _ _ _
  · exact .ret _ _

end Read

section Write

variable (htranslate : ∀ a, F.Within (isaMmuTranslate P a .write))
  (hwrite : ∀ pa len data mode, F.Within (paddrWrite P pa len data mode va))

include htranslate hwrite

theorem vaddrWriteCrossPage_within (n i : Nat) (data : Word) :
    F.Within (vaddrWriteCrossPage P va n i data) := by
  induction n generalizing i data with
  | zero => exact .ret _ _
  | succ n ih =>
    refine .bind (htranslate _) fun r => ?_
    split
    · exact .ret _ _
    · exact .bind (.read _) fun s => .bind (hwrite _ _ _ _) fun _ => ih _ _

theorem vaddrMmuWrite_within : F.Within (vaddrMmuWrite P va len data) := by
  refine .bind (htranslate va) fun r => ?_
  split
  · exact .bind (.read _) fun s => hwrite _ _ _ _
  split
  · exact vaddrWriteCrossPage_within htranslate hwrite _ _ _
  · exact .ret _ _

end Write

end Access

end Nemu
