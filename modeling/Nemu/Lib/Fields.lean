import Mathlib.Data.List.Nodup
import Mathlib.Logic.Function.Basic

namespace Fields

variable {κ ι α : Type} [DecidableEq κ] {fields : List κ} {w w' : κ → α} {k : κ}

/-- A buffer copied onto a record, whose first fields are `fields`. -/
def load (fields : List κ) (b : Fin fields.length → α) (w : κ → α) (k : κ) : α :=
  if h : k ∈ fields then b ⟨fields.idxOf k, List.idxOf_lt_length_of_mem h⟩ else w k

/-- The first fields of a record, copied to a buffer. -/
def store (fields : List κ) (w : κ → α) : Fin fields.length → α := fun i => w (fields.get i)

theorem load_mem (h : k ∈ fields) (b : Fin fields.length → α) :
    load fields b w k = b ⟨fields.idxOf k, List.idxOf_lt_length_of_mem h⟩ := dif_pos h

theorem load_not_mem (h : k ∉ fields) (b : Fin fields.length → α) : load fields b w k = w k := dif_neg h

theorem store_idxOf (h : k ∈ fields) (w : κ → α) :
    store fields w ⟨fields.idxOf k, List.idxOf_lt_length_of_mem h⟩ = w k :=
  congrArg w (List.getElem_idxOf (List.idxOf_lt_length_of_mem h))

theorem load_get (hf : fields.Nodup) (b : Fin fields.length → α) (i : Fin fields.length) :
    load fields b w (fields.get i) = b i := by
  rw [load_mem (List.get_mem fields i)]
  congr 1
  exact Fin.ext (hf.idxOf_getElem i.val i.isLt)

theorem store_eq (hf : fields.Nodup) {b : Fin fields.length → α}
    (h : ∀ k ∈ fields, w' k = load fields b w k) : store fields w' = b := by
  funext i
  exact (h _ (List.get_mem fields i)).trans (load_get hf b i)

theorem load_store (hk : k ∈ fields) : load fields (store fields w) w' k = w k := by
  rw [load_mem hk, store_idxOf hk]

/-- The assignments `key i := value i`, in turn. -/
def assign (key : ι → κ) (value : ι → α) (is : List ι) (w : κ → α) : κ → α :=
  is.foldl (fun w i => Function.update w (key i) (value i)) w

section Assign

variable {key : ι → κ} {value : ι → α} {is : List ι} {i : ι}

theorem assign_cons (i : ι) (is : List ι) (w : κ → α) :
    assign key value (i :: is) w = assign key value is (Function.update w (key i) (value i)) := rfl

theorem assign_other (h : ∀ i ∈ is, key i ≠ k) : assign key value is w k = w k := by
  induction is generalizing w with
  | nil => rfl
  | cons i is ih =>
    rw [assign_cons, ih fun j hj => h j (List.mem_cons_of_mem _ hj)]
    exact Function.update_of_ne (h i List.mem_cons_self).symm _ _

theorem assign_mem (hkey : Function.Injective key) (h : i ∈ is) :
    assign key value is w (key i) = value i := by
  induction is generalizing w with
  | nil => cases h
  | cons j is ih =>
    rw [assign_cons]
    by_cases hi : i ∈ is
    · exact ih hi
    · obtain rfl | h := List.mem_cons.mp h
      · have hne : ∀ j ∈ is, key j ≠ key i := by
          intro j hj hk
          cases hkey hk
          exact hi hj
        rw [assign_other hne]
        exact Function.update_self _ _ _
      · exact absurd h hi

theorem assign_same (h : ∀ i ∈ is, value i = w (key i)) : assign key value is w = w := by
  induction is with
  | nil => rfl
  | cons i is ih =>
    rw [assign_cons, h i List.mem_cons_self, Function.update_eq_self]
    exact ih fun j hj => h j (List.mem_cons_of_mem _ hj)

end Assign

end Fields
