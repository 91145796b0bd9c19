import Z80Asm.Proofs.CallScopes
import Z80Asm.Proofs.EarlyValues
import Z80Asm.Proofs.Patching

/-! The scopes that are open at each place of a program. Declarations, layout and patching each
keep a stack of them, and the stacks are the same everywhere, however the delimiters are nested. -/

namespace Z80Asm
set_option autoImplicit true

namespace Program

/-- What an update makes of the first elements does not depend on those behind them. -/
theorem take_updateFrom (f : σ → Element → Statement × σ) (depth : Nat) (s : σ)
    (es : List Element) (n : Nat) :
    (walkFrom (fun s e => ([{ e with stmt := (f s e).1 }], (f s e).2)) depth s es).1.take n =
      (walkFrom (fun s e => ([{ e with stmt := (f s e).1 }], (f s e).2)) depth s
        (es.take n)).1 := by
  induction es generalizing depth s n with
  | nil => rw [List.take_nil, walkFrom, List.take_nil]
  | cons e es ih =>
    cases n with
    | zero => rfl
    | succ n =>
      rw [List.take_succ_cons, walkFrom, walkFrom]
      split
      · exact congrArg (e :: ·) (ih _ s n)
      · exact congrArg (_ :: ·) (ih depth _ n)

theorem take_update (f : σ → Element → Statement × σ) (s : σ) (es : List Element) (n : Nat) :
    (update f s es).1.take n = (update f s (es.take n)).1 :=
  take_updateFrom f 0 s es n

end Program

namespace ScopeStack

def behind (es : List Element) : ScopeStack :=
  es.foldl (fun scopes e => scopes.after e.stmt) []

theorem after_alike (h : Program.Alike stmt stmt') (scopes : ScopeStack) :
    scopes.after stmt' = scopes.after stmt := by
  cases h <;> rfl

theorem foldl_thread {f : σ → Element → Statement × σ}
    (h : ∀ s e, Program.Alike e.stmt (f s e).1) (s : σ) (es : List Element)
    (scopes : ScopeStack) :
    (Program.thread f s es).1.foldl (fun scopes e => scopes.after e.stmt) scopes =
      es.foldl (fun scopes e => scopes.after e.stmt) scopes := by
  induction es generalizing s scopes with
  | nil => rfl
  | cons e es ih =>
    rw [Program.thread, List.foldl_cons, List.foldl_cons, after_alike (h s e), ih]

theorem behind_thread {f : σ → Element → Statement × σ}
    (h : ∀ s e, Program.Alike e.stmt (f s e).1) (s : σ) (es : List Element) :
    behind (Program.thread f s es).1 = behind es :=
  foldl_thread h s es []

theorem thread_scopes {f : σ → Element → Statement × σ} {scopes : σ → ScopeStack}
    (h : ∀ s e, scopes (f s e).2 = (scopes s).after e.stmt) (s : σ) (es : List Element) :
    scopes (Program.thread f s es).2 =
      es.foldl (fun scopes e => scopes.after e.stmt) (scopes s) := by
  induction es generalizing s with
  | nil => rfl
  | cons e es ih => rw [Program.thread, ih, h, List.foldl_cons]

end ScopeStack

namespace Declarations.State

/-- The scopes that are open, as the later passes keep them. -/
def scopes (s : State) : ScopeStack := s.stack.map Frame.scope

theorem current_scopes (s : State) : s.scopes.current = s.scope := by
  unfold scopes scope ScopeStack.current
  cases s.stack <;> rfl

theorem scopes_leave (s : State) (isCall : Bool) (loc : Location) :
    (s.leave isCall loc).2.scopes = s.scopes.tail := by
  rw [scopes, stack_leave, List.map_tail, scopes]

theorem scopes_enterCall (s : State) (c : MacroCall) (loc : Location) :
    (s.enterCall c loc).2.scopes = (s.enterCall c loc).1.scope :: s.scopes := by
  rw [scopes, stack_enterCall]
  rfl

/-- The scope that an element gets is the one that is opened by it. -/
theorem scopes_step (s : State) (e : Element) :
    (s.step e).2.scopes = s.scopes.after (s.step e).1 := by
  obtain ⟨loc, stmt⟩ := e
  cases stmt with
  | call c =>
    unfold step
    dsimp only
    split
    · rename_i hc
      rw [scopes_enterCall, ScopeStack.after, if_pos]
      exact hc
    · rename_i hc
      exact (if_neg hc).symm
  | endBlock => exact s.scopes_leave false loc
  | endCall => exact s.scopes_leave true loc
  | label l => exact congrArg (List.map Frame.scope) (declare_frame s _ _ _ _).2
  | _ => rfl

theorem scopes_thread (s : State) (es : List Element) :
    (Program.thread step s es).2.scopes =
      (Program.thread step s es).1.foldl (fun scopes e => scopes.after e.stmt) s.scopes := by
  induction es generalizing s with
  | nil => rfl
  | cons e es ih => rw [Program.thread, ih, scopes_step, List.foldl_cons]

theorem behind_thread_step (es : List Element) :
    ScopeStack.behind (Program.thread step {} es).1 = (Program.thread step {} es).2.scopes :=
  (scopes_thread {} es).symm

end Declarations.State

theorem Layout.State.scopes_through (t : SymbolTable) (es : List Element) :
    (through t es).scopes = .behind es :=
  ScopeStack.thread_scopes scopes_step { table := t } es

theorem Patch.State.scopes_through (t : SymbolTable) (es : List Element) :
    (through t es).scopes = .behind es :=
  ScopeStack.thread_scopes scopes_step { memo := ⟨t, []⟩ } es

/-! What each pass has come to when it has walked over the first `n` elements of a program, macro
definitions among them. -/

def Declarations.stateAt (es : List Element) (n : Nat) : State :=
  (Program.update State.step {} (es.take n)).2

def Layout.stateAt (es : List Element) (t : SymbolTable) (n : Nat) : State :=
  (Program.update State.step { table := t } (es.take n)).2

def Patch.stateAt (es : List Element) (t : SymbolTable) (n : Nat) : State :=
  (Program.update State.step { memo := ⟨t, []⟩ } (es.take n)).2

theorem Layout.scopes_stateAt (es : List Element) (t : SymbolTable) (n : Nat) :
    (stateAt es t n).scopes = .behind (Program.outside (es.take n)) := by
  rw [stateAt, Program.update_snd State.step_inert]
  exact State.scopes_through t _

theorem Patch.scopes_stateAt (es : List Element) (t : SymbolTable) (n : Nat) :
    (stateAt es t n).scopes = .behind (Program.outside (es.take n)) := by
  rw [stateAt, Program.update_snd State.step_inert]
  exact State.scopes_through t _

namespace Declarations

theorem take_collect (es : List Element) (n : Nat) :
    (collect es).program.take n = (collect (es.take n)).program :=
  Program.take_update State.step {} es n

theorem behind_collect (es : List Element) (n : Nat) :
    ScopeStack.behind (Program.outside ((collect es).program.take n)) =
      (stateAt es n).scopes := by
  rw [take_collect, outside_collect, State.behind_thread_step, stateAt,
    Program.update_snd State.step_inert]


end Declarations

theorem Layout.behind_assign (es : List Element) (t : SymbolTable) (n : Nat) :
    ScopeStack.behind (Program.outside ((assign es t).program.take n)) =
      ScopeStack.behind (Program.outside (es.take n)) := by
  have htake : (assign es t).program.take n = (assign (es.take n) t).program :=
    Program.take_update State.step { table := t } es n
  rw [htake, outside_assign, ScopeStack.behind_thread State.step_alike]

/-- At every place of a program, whatever its delimiters, declaration, layout and patching are in
the same scopes. -/
theorem Declarations.scopes_agree (es : List Element) (t t' : SymbolTable) (n : Nat) :
    let declared := (collect es).program
    let placed := (Layout.assign declared t).program
    (Layout.stateAt declared t n).scopes = (stateAt es n).scopes ∧
      (Patch.stateAt placed t' n).scopes = (stateAt es n).scopes ∧
      (Patch.stateAt declared t' n).scopes = (stateAt es n).scopes ∧
      (stateAt es n).scopes.current = (stateAt es n).scope := by
  intro declared placed
  have hdeclared := behind_collect es n
  refine ⟨?_, ?_, ?_, State.current_scopes _⟩
  · rw [Layout.scopes_stateAt, hdeclared]
  · rw [Patch.scopes_stateAt, Layout.behind_assign, hdeclared]
  · rw [Patch.scopes_stateAt, hdeclared]

end Z80Asm
