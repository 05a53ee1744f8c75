import Nemu.WalkContract

namespace Nemu

open Effect

set_option autoImplicit true

def pageFault (s : Machine) : MemType → Exc
  | .ifetch => .IPF
  | .read => if s.amo then .SPF else .LPF
  | _ => .SPF

/-- The state in which an exception is raised for an access. -/
def Machine.faulted (s : Machine) (P : Platform) (ex : Exc) (va : Word) : Machine :=
  s.setCsr (trapLevel P s ex.code).tval va

/-- A page fault of `check_permission`, which clears the flag `amo`. -/
def pageFaulted (P : Platform) (s : Machine) (type : MemType) (va : Word) :
    EStateM.Result Stop Machine α :=
  .error (.exception ⟨pageFault s type, some va, .plain⟩)
    (({ s with amo := false } : Machine).faulted P (pageFault s type) va)

def Machine.typeMode (s : Machine) (type : MemType) : Mode := s.accessMode (type = .ifetch)

def keyReason (type : MemType) : FaultReason := if type = .read then .MFR_LF else .MFR_SF

def keyFaulted (P : Platform) (s : Machine) (type : MemType) (va : Word) :
    EStateM.Result Stop Machine α :=
  .error (.exception ⟨dasicsEx (s.typeMode type), some va, .plain⟩)
    ((s.setCsr .dfreason (keyReason type).code).faulted P (dasicsEx (s.typeMode type)) va)

/-- The bits R, W and X that an access needs. -/
def pteKind (s : Machine) (pte : Pte) : MemType → Bool
  | .ifetch => pte.x
  | .read => pte.r || (s.mxr && pte.x)
  | _ => pte.w

/-- The reference lets software set the bits A and D. -/
def pteAged (P : Platform) (pte : Pte) : MemType → Bool
  | .ifetch | .read => P.share && !pte.a
  | _ => P.share && (!pte.a || !pte.d)

/-- `check_permission` finds no page fault in an entry. -/
def pteGrants (P : Platform) (s : Machine) (pte : Pte) (type : MemType) : Bool :=
  pteAllows s pte true (type = .ifetch) (s.typeMode type) && pteKind s pte type &&
    !pteAged P pte type

/-- The protection key of an entry denies an access. -/
def keyDenies (P : Platform) (s : Machine) (pte : Pte) : MemType → Bool
  | .ifetch => false
  | .read => P.dasics && (mpkBits s pte (s.typeMode .read)).1
  | type => P.dasics && ((mpkBits s pte (s.typeMode type)).1 || (mpkBits s pte (s.typeMode type)).2)

variable {P : Platform} {s : Machine} {pte : Pte} {va : Word} {type : MemType} {b : Bool}

theorem faulted_amo (h : s.amo = false) : ({ s with amo := false } : Machine) = s := by
  rw [← h]

theorem permission_test (P : Platform) (s : Machine) (pte : Pte) (b : Bool) (type : MemType) :
    (!(pteAllows s pte b (type = .ifetch) (s.typeMode type) && pteKind s pte type) ||
      pteAged P pte type) = !(b && pteGrants P s pte type) := by
  have hb : pteAllows s pte b (type = .ifetch) (s.typeMode type) =
      (b && pteAllows s pte true (type = .ifetch) (s.typeMode type)) := by
    cases b <;> rfl
  unfold pteGrants
  rw [hb]
  cases b <;> simp only [Bool.false_and, Bool.true_and, Bool.not_false, Bool.true_or, Bool.not_and,
    Bool.not_not]

theorem keyBits_eq (a w : Bool) : (a || (!a && w)) = (a || w) := by
  cases a <;> rfl

theorem checkPermission_eq (hm : Permitted s (type = .ifetch))
    (hamo : type = .ifetch → s.amo = false) :
    checkPermission P pte b va type s =
      if (b && pteGrants P s pte type) = false then pageFaulted P s type va
      else if keyDenies P s pte type = true then keyFaulted P s type va
      else .ok () s := by
  have hmode : s.accessMode (type = .ifetch) = .U ∨ s.accessMode (type = .ifetch) = .S := hm
  have htest := permission_test P s pte b type
  unfold checkPermission
  rw [get_bind]
  dsimp only
  rw [bind_ok (assert_pos _ hmode _ s)]
  cases hg : b && pteGrants P s pte type with
  | false =>
    rw [hg] at htest
    rw [if_pos rfl]
    cases type with
    | ifetch =>
      refine (congrFun (if_pos htest) s).trans ?_
      rw [bind_ok (assert_pos _ (hamo rfl) _ s)]
      unfold pageFaulted
      rw [faulted_amo (hamo rfl)]
      exact faultAt_run P _ va s
    | read | write | ifetchRead | writeRead =>
      refine (congrFun (if_pos htest) s).trans ?_
      exact faultAt_run P _ va { s with amo := false }
  | true =>
    rw [hg, Bool.not_true] at htest
    have hpass := ne_true_of_eq_false htest
    have hne : ¬ (true = false) := by decide
    rw [if_neg hne]
    cases hk : keyDenies P s pte type with
    | true =>
      rw [if_pos rfl]
      cases type with
      | ifetch => cases hk
      | read =>
        refine (congrFun (if_neg hpass) s).trans ((congrFun (if_pos hk) s).trans ?_)
        exact faultAt_run P _ va _
      | write | ifetchRead | writeRead =>
        refine (congrFun (if_neg hpass) s).trans ?_
        rw [keyBits_eq]
        exact (congrFun (if_pos hk) s).trans (faultAt_run P _ va _)
    | false =>
      rw [if_neg Bool.false_ne_true]
      have hkey := ne_true_of_eq_false hk
      cases type with
      | ifetch => exact congrFun (if_neg hpass) s
      | read => exact (congrFun (if_neg hpass) s).trans (congrFun (if_neg hkey) s)
      | write | ifetchRead | writeRead =>
        refine (congrFun (if_neg hpass) s).trans ?_
        rw [keyBits_eq]
        exact congrFun (if_neg hkey) s

theorem checkPermission_mode (hm : ¬ Permitted s (type = .ifetch)) :
    checkPermission P pte b va type s = .error (.abort .permissionMode) s := by
  have hmode : ¬ (s.accessMode (type = .ifetch) = .U ∨ s.accessMode (type = .ifetch) = .S) := hm
  unfold checkPermission
  rw [get_bind]
  dsimp only
  rw [bind_error (assert_neg _ hmode _ s)]

end Nemu
