import Z80Asm.Problem

/-! Results that come with the problems found on the way. -/

namespace Z80Asm

structure Checked (α : Type) where
  value : α
  problems : List Problem := []

namespace Checked

variable {α β : Type}

def pure (a : α) : Checked α := ⟨a, []⟩

def bind (x : Checked α) (f : α → Checked β) : Checked β :=
  ⟨(f x.value).value, x.problems ++ (f x.value).problems⟩

instance : Monad Checked where
  pure := pure
  bind := bind

@[simp] theorem value_pure (a : α) : (Pure.pure a : Checked α).value = a := rfl

@[simp] theorem problems_pure (a : α) : (Pure.pure a : Checked α).problems = [] := rfl

@[simp] theorem value_bind (x : Checked α) (f : α → Checked β) :
    (x >>= f).value = (f x.value).value := rfl

@[simp] theorem problems_bind (x : Checked α) (f : α → Checked β) :
    (x >>= f).problems = x.problems ++ (f x.value).problems := rfl

/-- A value that stands in for one that a problem has spoilt. -/
def spoilt (p : Problem) (a : α) : Checked α := ⟨a, [p]⟩

end Checked
end Z80Asm
