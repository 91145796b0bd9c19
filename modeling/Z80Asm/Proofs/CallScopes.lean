import Z80Asm.Proofs.Declared
import Z80Asm.Proofs.Identifiers

/-! Which names are declared in which scope. Every scope has an index of its own, and names in a
scope are the parameters of its call and the labels that stand directly in it. -/

namespace Z80Asm
set_option autoImplicit true

def Statement.declaredNames : Statement → List String
  | .label l => [l.name]
  | .call c => c.params
  | _ => []

/-- The element declares no name that begins with a segment. -/
def Element.PlainNames (e : Element) : Prop :=
  ∀ name ∈ e.stmt.declaredNames, Scope.Unsegmented name

instance (e : Element) : Decidable e.PlainNames :=
  inferInstanceAs (Decidable (∀ name ∈ _, Scope.Unsegmented name))

theorem Element.PlainNames.label {loc : Location} (h : Element.PlainNames ⟨loc, .label l⟩) :
    Scope.Unsegmented l.name :=
  h l.name (List.mem_singleton_self _)

/-- The values of a statement that may be evaluated once it has been placed, and then in scopes of
their own if they have them. -/
def Statement.earlyValues : Statement → List Value
  | .equ v => [v]
  | .call c => c.args
  | .bytes t => t.slots.filterMap fun slot =>
    match slot with
    | .expr v => some v
    | _ => none
  | _ => []

/-- These values have no scopes of their own. -/
def Element.Unscoped (e : Element) : Prop := ∀ v ∈ e.stmt.earlyValues, v.scope? = none

instance (e : Element) : Decidable e.Unscoped := inferInstanceAs (Decidable (∀ v ∈ _, _ = none))

/-- The names in the value are looked up in a scope with indices below `n`. -/
def Value.ScopedBelow (n : Nat) (v : Value) : Prop :=
  ∃ scope, v.scope? = some scope ∧ Scope.Below n scope

/-- An element that has been declared opens no scope and names no symbol outside of those with
indices below `n`. -/
def Element.Local (n : Nat) (e : Element) : Prop :=
  match e.stmt with
  | .block scope => Scope.Below n scope
  | .call c => c.expanded = true → Scope.Below n c.scope
  | .label l => Scope.Within n l.symbol
  | _ => True

theorem Element.Local.mono (h : Element.Local n e) (hn : n ≤ n') : Element.Local n' e := by
  obtain ⟨loc, stmt⟩ := e
  cases stmt with
  | block => exact Scope.Below.mono h hn
  | call c => exact fun he => Scope.Below.mono (h he) hn
  | label l => exact Scope.Within.mono h hn
  | _ => trivial

namespace Declarations

/-- Every frame has the scope of its index and those of the frames around it. -/
def Framed : List Frame → Prop
  | [] => True
  | f :: fs => f.scope = Scope.path (f.index :: fs.map Frame.index) ∧ Framed fs

namespace State

def indices (s : State) : List Nat := s.stack.map Frame.index

/-- Scopes are made of indices in use, names of scopes and names without segments, and values of
symbols that are visible where no index from `k` on is in use are themselves evaluated there. -/
structure Indexed (k : Nat) (s : State) : Prop where
  framed : Framed s.stack
  below : ∀ i ∈ s.indices, i < s.next
  names : ∀ q ∈ s.table.names, Scope.Within s.next q
  values : ∀ q v, s.table.get? q = some v → v.isDeferred = true → Scope.Within k q →
    v.ScopedBelow k

theorem scope_eq {s : State} (h : Framed s.stack) : s.scope = Scope.path s.indices := by
  unfold scope indices
  cases hs : s.stack with
  | nil => rfl
  | cons f fs =>
    rw [hs] at h
    exact h.1

theorem enter_fst (s : State) (isCall : Bool) (loc : Location) :
    (s.enter isCall loc).1 = Scope.path (s.next :: s.indices) := by
  rw [← Scope.ofStack_eq_path, List.reverse_cons]
  rfl

theorem declare_of_mem {s : State} (h : name ∈ s.table.names) (v : Value) (loc : Location)
    (taken : Problem) : s.declare name v loc taken = s.report taken loc := by
  rw [declare, SymbolTable.declare?_of_mem h]

theorem declare_of_not_mem {s : State} (h : name ∉ s.table.names) (v : Value) (loc : Location)
    (taken : Problem) :
    ∃ t, s.declare name v loc taken = { s with table := t } ∧
      t.outline = s.table.outline ++ [(name, loc)] ∧
      ∀ q, t.get? q = if q = name then some v else s.table.get? q := by
  obtain ⟨t, hd, ho, hget⟩ := SymbolTable.declare?_of_not_mem h v loc
  refine ⟨t, ?_, ho, hget⟩
  rw [declare, hd]

theorem names_of_outline {t t' : SymbolTable} (h : t'.outline = t.outline ++ [(name, loc)]) :
    t'.names = t.names ++ [name] := by
  rw [SymbolTable.names_eq_outline, SymbolTable.names_eq_outline, h, List.map_append]
  rfl

theorem Indexed.declare {s : State} (h : Indexed k s) (hname : Scope.Within s.next name)
    (hv : v.isDeferred = true → Scope.Within k name → v.ScopedBelow k) (loc : Location)
    (taken : Problem) : Indexed k (s.declare name v loc taken) := by
  by_cases hn : name ∈ s.table.names
  · rw [declare_of_mem hn]
    exact ⟨h.framed, h.below, h.names, h.values⟩
  · obtain ⟨t, hd, ho, hget⟩ := declare_of_not_mem hn v loc taken
    rw [hd]
    refine ⟨h.framed, h.below, fun q hq => ?_, fun q w hw => ?_⟩
    · rw [names_of_outline ho] at hq
      rcases List.mem_append.1 hq with hq | hq
      · exact h.names q hq
      · rw [List.mem_singleton.1 hq]
        exact hname
    · rw [hget] at hw
      split at hw
      · rename_i he
        cases hw
        rw [he]
        exact hv
      · exact h.values q w hw

theorem declare_frame (s : State) (name : String) (v : Value) (loc : Location) (taken : Problem) :
    (s.declare name v loc taken).next = s.next ∧ (s.declare name v loc taken).stack = s.stack := by
  unfold declare
  split
  · exact ⟨rfl, rfl⟩
  · exact ⟨rfl, rfl⟩

theorem bind_frame (s : State) (c : MacroCall) (caller scope : String) (loc : Location)
    (params : List String) (args : List Value) :
    (s.bind c caller scope loc params args).next = s.next ∧
      (s.bind c caller scope loc params args).stack = s.stack := by
  induction params generalizing s args with
  | nil => exact ⟨rfl, rfl⟩
  | cons p params ih =>
    unfold bind
    obtain ⟨hnext, hstack⟩ := ih (s.declare (scope ++ p) _ loc (.duplicateParameter p c.name))
      args.tail
    rw [hnext, hstack]
    exact declare_frame _ _ _ _ _

theorem Indexed.enter {s : State} (h : Indexed k s) (isCall : Bool) (loc : Location) :
    Indexed k (s.enter isCall loc).2 := by
  refine ⟨⟨s.enter_fst isCall loc, h.framed⟩, fun i hi => ?_, fun q hq => ?_, h.values⟩
  · rcases List.mem_cons.1 hi with rfl | hi
    · exact Nat.lt_succ_self _
    · exact Nat.lt_succ_of_lt (h.below i hi)
  · exact (h.names q hq).mono (Nat.le_succ _)

theorem scope?_withScope {a : Value} {scope : String} (ha : a.scope? = none)
    (hd : (a.withScope scope).isDeferred = true) : (a.withScope scope).scope? = some scope := by
  unfold Value.withScope at hd ⊢
  split
  · rfl
  · rename_i hn
    rw [if_neg hn] at hd
    rw [hd, ha] at hn
    exact (hn rfl).elim

theorem scopedBelow_argument {a : Value} (hp : Scope.Unsegmented p)
    (ha : i < k → a.scope? = none) (hd : (a.withScope (Scope.path is)).isDeferred = true)
    (hk : Scope.Within k (Scope.path (i :: is) ++ p)) :
    (a.withScope (Scope.path is)).ScopedBelow k := by
  obtain ⟨js, x, hq, hx, hjs⟩ := hk
  obtain ⟨rfl, -⟩ := Scope.path_append_inj hp hx hq
  have hi := hjs i List.mem_cons_self
  exact ⟨_, scope?_withScope (ha hi) hd, is, rfl, fun j hj => hjs j (List.mem_cons_of_mem i hj)⟩

theorem Indexed.bind {s : State} (h : Indexed k s) (c : MacroCall) (loc : Location)
    (his : ∀ j ∈ i :: is, j < s.next) (hparams : ∀ p ∈ params, Scope.Unsegmented p)
    (hargs : i < k → ∀ a ∈ args, a.scope? = none) :
    Indexed k (s.bind c (Scope.path is) (Scope.path (i :: is)) loc params args) := by
  induction params generalizing s args with
  | nil => exact h
  | cons p params ih =>
    have hp := hparams p List.mem_cons_self
    have hname : Scope.Within s.next (Scope.path (i :: is) ++ p) := ⟨i :: is, p, rfl, hp, his⟩
    unfold State.bind
    apply ih
    · apply h.declare hname
      intro hd hk
      cases args with
      | nil => cases hd
      | cons a args => exact scopedBelow_argument hp (fun hi => hargs hi a List.mem_cons_self) hd hk
    · rw [(declare_frame _ _ _ _ _).1]
      exact his
    · exact fun q hq => hparams q (List.mem_cons_of_mem p hq)
    · exact fun hi a ha => hargs hi a (List.mem_of_mem_tail ha)

theorem enterCall_snd (s : State) (c : MacroCall) (loc : Location) :
    (s.enterCall c loc).2 =
      let bound := (s.enter true loc).2.bind c s.scope (s.enter true loc).1 loc c.params c.args
      if c.args.length > c.params.length then
        bound.report (.tooManyArguments c.name c.params.length c.args.length) loc
      else bound := rfl

theorem Indexed.enterCall {s : State} (h : Indexed k s) (c : MacroCall) (loc : Location)
    (hparams : ∀ p ∈ c.params, Scope.Unsegmented p)
    (hargs : s.next < k → ∀ a ∈ c.args, a.scope? = none) : Indexed k (s.enterCall c loc).2 := by
  have hbelow : ∀ j ∈ s.next :: s.indices, j < (s.enter true loc).2.next := by
    intro j hj
    rcases List.mem_cons.1 hj with rfl | hj
    · exact Nat.lt_succ_self _
    · exact Nat.lt_succ_of_lt (h.below j hj)
  have hbind := (h.enter true loc).bind c loc hbelow hparams hargs
  rw [enterCall_snd, enter_fst, scope_eq h.framed]
  dsimp only
  split
  · exact ⟨hbind.framed, hbind.below, hbind.names, hbind.values⟩
  · exact hbind

theorem Indexed.leave {s : State} (h : Indexed k s) (isCall : Bool) (loc : Location) :
    Indexed k (s.leave isCall loc).2 := by
  unfold State.leave
  split
  · exact ⟨h.framed, h.below, h.names, h.values⟩
  · rename_i f fs hstack
    have hframed := h.framed
    rw [hstack] at hframed
    have houter : Indexed k { s with stack := fs } := by
      refine ⟨hframed.2, fun i hi => h.below i ?_, h.names, h.values⟩
      rw [indices, hstack]
      exact List.mem_cons_of_mem _ hi
    dsimp only
    split
    · exact houter
    · exact ⟨houter.framed, houter.below, houter.names, houter.values⟩

theorem Indexed.symbol_within {s : State} (h : Indexed k s) (l : Label) (loc : Location)
    (hl : Scope.Unsegmented l.name) : Scope.Within s.next (s.declareLabel l loc).1.symbol := by
  change Scope.Within s.next (if l.isPublic then l.name else s.scope ++ l.name)
  split
  · exact ⟨[], l.name, (String.empty_append).symm, hl, fun i hi => nomatch hi⟩
  · rw [scope_eq h.framed]
    exact ⟨s.indices, l.name, rfl, hl, h.below⟩

theorem Indexed.declareLabel {s : State} (h : Indexed k s) (l : Label) (loc : Location)
    (hl : Scope.Unsegmented l.name) : Indexed k (s.declareLabel l loc).2 :=
  h.declare (h.symbol_within l loc hl) (fun hd => by cases hd) loc _

theorem Indexed.step {s : State} (h : Indexed k s) {e : Element} (hnames : e.PlainNames)
    (hargs : s.next < k → e.Unscoped) : Indexed k (s.step e).2 := by
  obtain ⟨loc, stmt⟩ := e
  cases stmt with
  | block => exact h.enter false loc
  | call c =>
    unfold State.step
    dsimp only
    split
    · exact h.enterCall c loc hnames hargs
    · exact h
  | endBlock => exact h.leave false loc
  | endCall => exact h.leave true loc
  | label l => exact h.declareLabel l loc hnames.label
  | _ => exact h

theorem next_leave (s : State) (isCall : Bool) (loc : Location) :
    (s.leave isCall loc).2.next = s.next := by
  unfold State.leave
  split
  · rfl
  · dsimp only
    split
    · rfl
    · rfl

theorem next_enterCall (s : State) (c : MacroCall) (loc : Location) :
    (s.enterCall c loc).2.next = s.next + 1 := by
  rw [enterCall_snd]
  dsimp only
  split
  · exact (bind_frame _ _ _ _ _ _ _).1
  · exact (bind_frame _ _ _ _ _ _ _).1

theorem stack_enterCall (s : State) (c : MacroCall) (loc : Location) :
    (s.enterCall c loc).2.stack = (s.enter true loc).2.stack := by
  rw [enterCall_snd]
  dsimp only
  split
  · exact (bind_frame _ _ _ _ _ _ _).2
  · exact (bind_frame _ _ _ _ _ _ _).2

theorem stack_leave (s : State) (isCall : Bool) (loc : Location) :
    (s.leave isCall loc).2.stack = s.stack.tail := by
  unfold State.leave
  cases hs : s.stack with
  | nil => exact hs
  | cons f fs =>
    dsimp only
    split
    · rfl
    · rfl

theorem next_le_step (s : State) (e : Element) : s.next ≤ (s.step e).2.next := by
  obtain ⟨loc, stmt⟩ := e
  cases stmt with
  | block => exact Nat.le_succ _
  | call c =>
    unfold State.step
    dsimp only
    split
    · exact Nat.le_of_lt (Nat.lt_of_lt_of_eq (Nat.lt_succ_self _) (s.next_enterCall c loc).symm)
    · exact Nat.le_refl _
  | endBlock => exact Nat.le_of_eq (s.next_leave false loc).symm
  | endCall => exact Nat.le_of_eq (s.next_leave true loc).symm
  | label l => exact Nat.le_of_eq (declare_frame _ _ _ _ _).1.symm
  | _ => exact Nat.le_refl _

theorem next_le_thread (s : State) (es : List Element) :
    s.next ≤ (Program.thread State.step s es).2.next :=
  Program.thread_induction (P := fun s' : State => s.next ≤ s'.next)
    (fun s' e h => Nat.le_trans h (s'.next_le_step e)) (Nat.le_refl _) es

theorem Indexed.thread {s : State} (h : Indexed k s) (hnames : ∀ e ∈ es, e.PlainNames)
    (hargs : s.next < k → ∀ e ∈ es, e.Unscoped) :
    Indexed k (Program.thread State.step s es).2 := by
  induction es generalizing s with
  | nil => exact h
  | cons e es ih =>
    apply ih
    · exact h.step (hnames e List.mem_cons_self) fun hk => hargs hk e List.mem_cons_self
    · exact fun a ha => hnames a (List.mem_cons_of_mem e ha)
    · intro hk a ha
      exact hargs (Nat.lt_of_le_of_lt (s.next_le_step e) hk) a (List.mem_cons_of_mem e ha)

theorem Indexed.enter_below {s : State} (h : Indexed k s) (isCall : Bool) (loc : Location) :
    Scope.Below (s.next + 1) (s.enter isCall loc).1 := by
  refine ⟨s.next :: s.indices, s.enter_fst isCall loc, fun i hi => ?_⟩
  rcases List.mem_cons.1 hi with rfl | hi
  · exact Nat.lt_succ_self _
  · exact Nat.lt_succ_of_lt (h.below i hi)

theorem Indexed.step_local {s : State} (h : Indexed k s) {e : Element} (hnames : e.PlainNames) :
    Element.Local (s.step e).2.next { e with stmt := (s.step e).1 } := by
  obtain ⟨loc, stmt⟩ := e
  cases stmt with
  | block => exact h.enter_below false loc
  | call c =>
    unfold State.step
    dsimp only
    split
    · intro
      rw [next_enterCall]
      exact h.enter_below true loc
    · rename_i hc
      exact fun he => (hc he).elim
  | label l =>
    have hnext : (s.declareLabel l loc).2.next = s.next := (declare_frame _ _ _ _ _).1
    change Scope.Within (s.declareLabel l loc).2.next (s.declareLabel l loc).1.symbol
    rw [hnext]
    exact h.symbol_within l loc hnames.label
  | _ => trivial

/-- What is declared before the index `k` is in use stays below it. -/
theorem Indexed.thread_local {s : State} (h : Indexed k s) (hnames : ∀ e ∈ es, e.PlainNames)
    (hargs : ∀ e ∈ es, e.Unscoped)
    (he : e ∈ (Program.thread State.step s es).1) :
    Element.Local (Program.thread State.step s es).2.next e := by
  induction es generalizing s with
  | nil => cases he
  | cons a es ih =>
    have hstep := h.step (hnames a List.mem_cons_self) fun _ => hargs a List.mem_cons_self
    rcases List.mem_cons.1 he with rfl | he
    · exact (h.step_local (hnames a List.mem_cons_self)).mono (next_le_thread _ es)
    · exact ih hstep (fun b hb => hnames b (List.mem_cons_of_mem a hb))
        (fun b hb => hargs b (List.mem_cons_of_mem a hb)) he

theorem table_leave (s : State) (isCall : Bool) (loc : Location) :
    (s.leave isCall loc).2.table = s.table := by
  unfold leave
  split
  · rfl
  · dsimp only
    split <;> rfl

theorem table_enterCall (s : State) (c : MacroCall) (loc : Location) :
    (s.enterCall c loc).2.table =
      ((s.enter true loc).2.bind c s.scope (s.enter true loc).1 loc c.params c.args).table := by
  rw [enterCall_snd]
  dsimp only
  split <;> rfl

def declares (s : State) (e : Element) : List String :=
  match e.stmt with
  | .label l => [(s.declareLabel l e.loc).1.symbol]
  | .call c => if c.expanded then c.params.map ((s.enter true e.loc).1 ++ ·) else []
  | _ => []

theorem mem_names_declare (s : State) (name : String) (v : Value) (loc : Location)
    (taken : Problem) :
    q ∈ (s.declare name v loc taken).table.names ↔ q ∈ s.table.names ∨ q = name := by
  by_cases hn : name ∈ s.table.names
  · rw [declare_of_mem hn]
    refine ⟨.inl, fun h => ?_⟩
    rcases h with h | rfl
    · exact h
    · exact hn
  · obtain ⟨t, hd, ho, -⟩ := declare_of_not_mem hn v loc taken
    rw [hd, names_of_outline ho, List.mem_append, List.mem_singleton]

theorem mem_names_bind (s : State) (c : MacroCall) (caller scope : String) (loc : Location)
    (params : List String) (args : List Value) :
    q ∈ (s.bind c caller scope loc params args).table.names ↔
      q ∈ s.table.names ∨ q ∈ params.map (scope ++ ·) := by
  induction params generalizing s args with
  | nil => simp only [State.bind, List.map_nil, List.not_mem_nil, or_false]
  | cons p params ih =>
    unfold State.bind
    rw [ih, mem_names_declare, List.map_cons, List.mem_cons, or_assoc]

theorem mem_names_step (s : State) (e : Element) :
    q ∈ (s.step e).2.table.names ↔ q ∈ s.table.names ∨ q ∈ s.declares e := by
  obtain ⟨loc, stmt⟩ := e
  cases stmt with
  | label l =>
    rw [declares, List.mem_singleton]
    exact s.mem_names_declare _ _ _ _
  | call c =>
    unfold State.step declares
    dsimp only
    split
    · rw [table_enterCall, mem_names_bind]
      rfl
    · simp only [List.not_mem_nil, or_false]
  | endBlock =>
    change q ∈ (s.leave false loc).2.table.names ↔ _
    simp only [table_leave, declares, List.not_mem_nil, or_false]
  | endCall =>
    change q ∈ (s.leave true loc).2.table.names ↔ _
    simp only [table_leave, declares, List.not_mem_nil, or_false]
  | _ => exact (or_iff_left List.not_mem_nil).symm

theorem mem_names_thread (h : q ∈ s.table.names) (es : List Element) :
    q ∈ (Program.thread State.step s es).2.table.names :=
  Program.thread_induction (P := fun s : State => q ∈ s.table.names)
    (fun s e h => (s.mem_names_step e).2 (.inl h)) h es

theorem mem_names_of_label {s : State} (h : e ∈ (Program.thread State.step s es).1)
    (hl : e.stmt = .label l) : l.symbol ∈ (Program.thread State.step s es).2.table.names := by
  induction es generalizing s with
  | nil => cases h
  | cons a es ih =>
    rcases List.mem_cons.1 h with rfl | h
    · refine mem_names_thread (s := (s.step a).2) ((s.mem_names_step a).2 (.inr ?_)) es
      by_cases ha : ∃ l₀, a.stmt = .label l₀
      · obtain ⟨l₀, ha⟩ := ha
        obtain ⟨loc, stmt⟩ := a
        cases ha
        cases hl
        exact List.mem_singleton_self _
      · exact (s.step_not_label (fun l₀ h₀ => ha ⟨l₀, h₀⟩) l hl).elim
    · exact ih h

theorem earlyValues_step (s : State) (e : Element) :
    (s.step e).1.earlyValues = e.stmt.earlyValues := by
  obtain ⟨loc, stmt⟩ := e
  cases stmt with
  | call c =>
    unfold State.step
    dsimp only
    split
    · rfl
    · rfl
  | _ => rfl

theorem Indexed.initial (k : Nat) : Indexed k {} := by
  refine ⟨trivial, fun i hi => ?_, fun q hq => ?_, fun q v hv => ?_⟩
  · cases hi
  · cases hq
  · cases hv

end State
end Declarations
end Z80Asm
