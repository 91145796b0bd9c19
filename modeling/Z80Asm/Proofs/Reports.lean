import Mathlib
import Z80Asm.Problem

/-! What passes report: problems are only added to those found before. -/

namespace Z80Asm
set_option autoImplicit true

def Problem.aboutCall : Problem → Bool
  | undefinedMacro _ | nestedTooDeep .. => true
  | _ => false

/-- `ds'` is `ds` with further problems behind, none of them about a macro call. -/
def Adds (ds ds' : List Diagnostic) : Prop :=
  ∃ new, ds' = ds ++ new ∧ ∀ d ∈ new, d.problem.aboutCall = false

namespace Adds

theorem refl (ds : List Diagnostic) : Adds ds ds :=
  ⟨[], (List.append_nil ds).symm, fun _ h => nomatch h⟩

theorem trans (h : Adds ds ds') (h' : Adds ds' ds'') : Adds ds ds'' := by
  obtain ⟨new, rfl, hnew⟩ := h
  obtain ⟨new', rfl, hnew'⟩ := h'
  refine ⟨new ++ new', List.append_assoc _ _ _, fun d hd => ?_⟩
  rcases List.mem_append.1 hd with hd | hd
  · exact hnew d hd
  · exact hnew' d hd

theorem report (ds : List Diagnostic) (hp : p.aboutCall = false) (loc : Location) :
    Adds ds (ds ++ [⟨p, loc⟩]) :=
  ⟨_, rfl, fun _ hd => List.mem_singleton.1 hd ▸ hp⟩

theorem quiet (h : Adds ds ds') (hq : ds' = []) : ds = [] := by
  obtain ⟨new, rfl, -⟩ := h
  exact (List.append_eq_nil_iff.1 hq).1

theorem not_aboutCall (h : Adds [] ds) : ∀ d ∈ ds, d.problem.aboutCall = false := by
  obtain ⟨new, rfl, hnew⟩ := h
  exact hnew

end Adds
end Z80Asm
