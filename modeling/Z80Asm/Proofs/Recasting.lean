import Z80Asm.Proofs.CallScopes

/-! Declarations in two states that differ in the values of some symbols and in what kind of scope
one of the open scopes is. They go alike until that scope ends. -/

namespace Z80Asm
set_option autoImplicit true

namespace Program

def isEnd : Statement → Bool
  | .endBlock _ | .endCall .. => true
  | _ => false

/-- The open blocks and calls after a statement, innermost first, where `true` stands for a call.
There are none if the statement ends what has not been opened. -/
def bracketsAfter (opened : List Bool) : Statement → Option (List Bool)
  | .block _ => some (false :: opened)
  | .call c => some (if c.expanded then true :: opened else opened)
  | .endBlock _ => if opened.head? = some false then some opened.tail else none
  | .endCall .. => if opened.head? = some true then some opened.tail else none
  | _ => some opened

def brackets (opened : List Bool) : List Element → Option (List Bool)
  | [] => some opened
  | e :: es => (bracketsAfter opened e.stmt).bind (brackets · es)

theorem bracketsAfter_end {stmt : Statement} (h : isEnd stmt = true)
    (hb : bracketsAfter opened stmt = some opened') : ∃ b, opened = b :: opened' := by
  have hclose {b : Bool} (hb : (if opened.head? = some b then some opened.tail else none) =
      some opened') : ∃ b, opened = b :: opened' := by
    cases opened with
    | nil => cases hb
    | cons c opened =>
      split at hb
      · cases hb
        exact ⟨c, rfl⟩
      · cases hb
  cases stmt with
  | endBlock => exact hclose hb
  | endCall => exact hclose hb
  | _ => cases h

def WellBracketed (es : List Element) : Prop := brackets [] es = some []

instance (es : List Element) : Decidable (WellBracketed es) := inferInstanceAs (Decidable (_ = _))

def topLabelsFrom (opened : List Bool) : List Element → List String
  | [] => []
  | e :: es =>
    (match e.stmt with
      | .label l => if opened = [] ∧ l.isPublic = false then [l.name] else []
      | _ => []) ++ topLabelsFrom ((bracketsAfter opened e.stmt).getD []) es

/-- The names of the labels that are in no block or call, and not public. -/
def topLabels (es : List Element) : List String := topLabelsFrom [] es

end Program

namespace SymbolTable

def blank (qs : List String) (t : SymbolTable) : SymbolTable where
  symbols := t.symbols.map fun s => if s.name ∈ qs then { s with value := .unresolved } else s
  nodup := by
    have h : (fun s : Symbol => (if s.name ∈ qs then { s with value := .unresolved } else s).name) =
        Symbol.name := by
      funext s
      split <;> rfl
    simpa only [List.map_map, Function.comp_def, h] using t.nodup

section
variable {qs : List String} {t : SymbolTable}

theorem outline_blank (qs : List String) (t : SymbolTable) : (t.blank qs).outline = t.outline := by
  simp only [outline, blank, List.map_map]
  congr 1
  funext s
  simp only [Function.comp_apply]
  split <;> rfl

theorem names_blank (qs : List String) (t : SymbolTable) : (t.blank qs).names = t.names :=
  names_congr (outline_blank qs t)

theorem get?_blank (qs : List String) (t : SymbolTable) (q : String) :
    (t.blank qs).get? q = (t.get? q).map fun v => if q ∈ qs then .unresolved else v := by
  have hname : (fun s : Symbol => decide
      ((if s.name ∈ qs then { s with value := .unresolved } else s).name = q)) =
      fun s => decide (s.name = q) := by
    funext s
    split <;> rfl
  simp only [get?, find?, blank, List.find?_map, Function.comp_def, hname]
  cases hs : t.symbols.find? fun s => decide (s.name = q) with
  | none => rfl
  | some s =>
    have he : s.name = q := by simpa only [decide_eq_true_eq] using List.find?_some hs
    simp only [Option.map_some, he]
    split <;> rfl

theorem blank_of_not_mem (h : ∀ q ∈ qs, q ∉ t.names) : t.blank qs = t := by
  apply ext_get? (outline_blank qs t)
  intro q
  rw [get?_blank]
  cases hv : t.get? q with
  | none => rfl
  | some v =>
    have hq : q ∉ qs := fun hq => h q hq (mem_names_of_get? hv)
    rw [Option.map_some, if_neg hq]

theorem declare?_blank (h : name ∈ t.names ∨ name ∉ qs) (v : Value) (loc : Location) :
    (t.blank qs).declare? name v loc = (t.declare? name v loc).map (blank qs) := by
  unfold declare?
  simp only [names_blank]
  split
  · rfl
  · rename_i hn
    have hq : name ∉ qs := h.resolve_left hn
    simp only [blank, Option.map_some, List.map_append, List.map_singleton, if_neg hq]

theorem declare?_blank_of_mem (h : name ∈ qs) (v : Value) (loc : Location) :
    (t.blank qs).declare? name .unresolved loc = (t.declare? name v loc).map (blank qs) := by
  unfold declare?
  simp only [names_blank]
  split
  · rfl
  · simp only [blank, Option.map_some, List.map_append, List.map_singleton, if_pos h]

end
end SymbolTable

namespace Declarations

def Frame.asBlock (k : Nat) (f : Frame) : Frame :=
  if f.index = k then { f with isCall := false } else f

theorem Frame.index_asBlock (k : Nat) (f : Frame) : (f.asBlock k).index = f.index := by
  unfold asBlock
  split <;> rfl

theorem Frame.scope_asBlock (k : Nat) (f : Frame) : (f.asBlock k).scope = f.scope := by
  unfold asBlock
  split <;> rfl

theorem Frame.asBlock_of_ne {f : Frame} (h : f.index ≠ k) : f.asBlock k = f := if_neg h

namespace State

/-- The state in which the scope with the index `k` is that of a block, and the symbols `qs` have no
values. -/
def recast (k : Nat) (qs : List String) (s : State) : State :=
  { s with table := s.table.blank qs, stack := s.stack.map (Frame.asBlock k) }

section
variable {k : Nat} {qs : List String} {s : State}

theorem table_recast (k : Nat) (qs : List String) (s : State) :
    (s.recast k qs).table = s.table.blank qs :=
  rfl

theorem scope_recast (k : Nat) (qs : List String) (s : State) :
    (s.recast k qs).scope = s.scope := by
  unfold scope recast
  dsimp only
  rw [List.head?_map]
  cases s.stack.head? with
  | none => rfl
  | some f => exact f.scope_asBlock k

theorem stack_recast (h : ∀ f ∈ s.stack, f.index ≠ k) :
    s.stack.map (Frame.asBlock k) = s.stack := by
  have hsame : s.stack.map (Frame.asBlock k) = s.stack.map id :=
    List.map_congr_left fun f hf => Frame.asBlock_of_ne (h f hf)
  rw [hsame, List.map_id]

theorem enter_recast (hk : s.next ≠ k) (isCall : Bool) (loc : Location) :
    (s.recast k qs).enter isCall loc =
      ((s.enter isCall loc).1, (s.enter isCall loc).2.recast k qs) := by
  have hindices : (s.recast k qs).stack.map Frame.index = s.stack.map Frame.index := by
    unfold recast
    rw [List.map_map]
    exact List.map_congr_left fun f _ => f.index_asBlock k
  unfold enter
  dsimp only
  rw [hindices]
  unfold recast
  dsimp only
  rw [List.map_cons, Frame.asBlock_of_ne hk]

theorem declare_recast (h : name ∈ s.table.names ∨ name ∉ qs) (v : Value) (loc : Location)
    (taken : Problem) :
    (s.recast k qs).declare name v loc taken = (s.declare name v loc taken).recast k qs := by
  unfold declare
  rw [table_recast, SymbolTable.declare?_blank h]
  cases s.table.declare? name v loc with
  | none => rfl
  | some t => rfl

theorem declare_recast_of_mem (h : name ∈ qs) (hn : name ∉ s.table.names) (v : Value)
    (loc : Location) (taken taken' : Problem) :
    (s.recast k qs).declare name .unresolved loc taken' =
      (s.declare name v loc taken).recast k qs := by
  obtain ⟨t, hd, -⟩ := SymbolTable.declare?_of_not_mem hn v loc
  unfold declare
  rw [table_recast, SymbolTable.declare?_blank_of_mem h v, hd]
  rfl

theorem bind_recast (hqs : ∀ q ∈ qs, q ∈ s.table.names) (c : MacroCall) (caller scope : String)
    (loc : Location) (params : List String) (args : List Value) :
    (s.recast k qs).bind c caller scope loc params args =
      (s.bind c caller scope loc params args).recast k qs := by
  induction params generalizing s args with
  | nil => rfl
  | cons p params ih =>
    unfold State.bind
    dsimp only
    rw [declare_recast]
    · exact ih (fun q hq => (mem_names_declare s _ _ _ _).2 (.inl (hqs q hq))) _
    · exact (em (scope ++ p ∈ qs)).imp_left (hqs _)

theorem enterCall_recast (hk : s.next ≠ k) (hqs : ∀ q ∈ qs, q ∈ s.table.names) (c : MacroCall)
    (loc : Location) :
    (s.recast k qs).enterCall c loc =
      ((s.enterCall c loc).1, (s.enterCall c loc).2.recast k qs) := by
  have hqs' : ∀ q ∈ qs, q ∈ (s.enter true loc).2.table.names := hqs
  unfold enterCall
  rw [enter_recast hk, scope_recast]
  dsimp only
  rw [bind_recast hqs']
  split
  · rfl
  · rfl

theorem leave_recast (h : ∀ f, s.stack.head? = some f → f.index ≠ k) (isCall : Bool)
    (loc : Location) :
    (s.recast k qs).leave isCall loc =
      ((s.leave isCall loc).1, (s.leave isCall loc).2.recast k qs) := by
  obtain ⟨table, next, stack, diagnostics⟩ := s
  cases stack with
  | nil => rfl
  | cons f fs =>
    unfold leave recast
    dsimp only
    rw [List.map_cons, Frame.asBlock_of_ne (h f rfl)]
    dsimp only
    split
    · rfl
    · rfl

/-- All that follows is declared alike, as long as it does not end the scope with the index `k`. -/
theorem step_recast (hk : k < s.next) (hqs : ∀ q ∈ qs, q ∈ s.table.names)
    (hend : Program.isEnd e.stmt = true → ∀ f, s.stack.head? = some f → f.index ≠ k) :
    (s.recast k qs).step e = ((s.step e).1, (s.step e).2.recast k qs) := by
  obtain ⟨loc, stmt⟩ := e
  have hne : s.next ≠ k := Nat.ne_of_gt hk
  cases stmt with
  | block =>
    unfold step
    dsimp only
    rw [enter_recast hne]
  | call c =>
    unfold step
    dsimp only
    rw [enterCall_recast hne hqs]
    split
    · rfl
    · rfl
  | endBlock =>
    unfold step
    dsimp only
    rw [leave_recast (hend rfl)]
  | endCall =>
    unfold step
    dsimp only
    rw [leave_recast (hend rfl)]
  | label l =>
    have hloc (q : String) : (s.recast k qs).table.loc q = s.table.loc q :=
      SymbolTable.loc_congr (SymbolTable.outline_blank qs s.table) q
    unfold step declareLabel
    dsimp only
    rw [scope_recast, hloc, declare_recast]
    exact (em _).imp_left (hqs _)
  | _ => rfl

theorem stack_step (s : State) (e : Element) :
    (∃ f : Frame, f.index = s.next ∧ (s.step e).2.stack = f :: s.stack ∧
        ∀ opened, ∃ b, Program.bracketsAfter opened e.stmt = some (b :: opened)) ∨
      (Program.isEnd e.stmt = true ∧ (s.step e).2.stack = s.stack.tail) ∨
      ((s.step e).2.stack = s.stack ∧
        ∀ opened, Program.bracketsAfter opened e.stmt = some opened) := by
  obtain ⟨loc, stmt⟩ := e
  cases stmt with
  | block => exact .inl ⟨_, rfl, rfl, fun opened => ⟨false, rfl⟩⟩
  | call c =>
    unfold State.step Program.bracketsAfter
    dsimp only
    split
    · exact .inl ⟨_, rfl, s.stack_enterCall c loc, fun opened => ⟨true, rfl⟩⟩
    · exact .inr (.inr ⟨rfl, fun opened => rfl⟩)
  | endBlock => exact .inr (.inl ⟨rfl, s.stack_leave false loc⟩)
  | endCall => exact .inr (.inl ⟨rfl, s.stack_leave true loc⟩)
  | label l => exact .inr (.inr ⟨(declare_frame _ _ _ _ _).2, fun opened => rfl⟩)
  | _ => exact .inr (.inr ⟨rfl, fun opened => rfl⟩)

/-- The open scopes are `n` scopes, none with the index `k`, and then those of `base`. -/
def Inside (k : Nat) (base : List Frame) (n : Nat) (s : State) : Prop :=
  ∃ inner, s.stack = inner ++ base ∧ inner.length = n ∧ ∀ f ∈ inner, f.index ≠ k

section
variable {base : List Frame} {opened opened' : List Bool} {e : Element} {es : List Element}

theorem Inside.head_ne (h : Inside k base opened.length s)
    (hb : Program.bracketsAfter opened e.stmt = some opened') (hend : Program.isEnd e.stmt = true)
    (f : Frame) (hf : s.stack.head? = some f) : f.index ≠ k := by
  obtain ⟨b, rfl⟩ := Program.bracketsAfter_end hend hb
  obtain ⟨inner, hstack, hlen, hinner⟩ := h
  cases inner with
  | nil => cases hlen
  | cons g inner =>
    rw [hstack] at hf
    cases hf
    exact hinner f List.mem_cons_self

theorem Inside.step (h : Inside k base opened.length s) (hk : k < s.next)
    (hb : Program.bracketsAfter opened e.stmt = some opened') :
    Inside k base opened'.length (s.step e).2 := by
  obtain ⟨inner, hstack, hlen, hinner⟩ := h
  rcases s.stack_step e with ⟨f, hf, hs, hopen⟩ | ⟨hend, hs⟩ | ⟨hs, hsame⟩
  · obtain ⟨b, hb'⟩ := hopen opened
    cases hb'.symm.trans hb
    refine ⟨f :: inner, by rw [hs, hstack]; rfl, congrArg (· + 1) hlen, fun g hg => ?_⟩
    rcases List.mem_cons.1 hg with rfl | hg
    · rw [hf]
      exact Nat.ne_of_gt hk
    · exact hinner g hg
  · obtain ⟨b, rfl⟩ := Program.bracketsAfter_end hend hb
    cases inner with
    | nil => cases hlen
    | cons g inner =>
      refine ⟨inner, by rw [hs, hstack]; rfl, Nat.succ.inj hlen, fun f hf => ?_⟩
      exact hinner f (List.mem_cons_of_mem g hf)
  · cases (hsame opened).symm.trans hb
    exact ⟨inner, by rw [hs, hstack], hlen, hinner⟩

/-- Elements that end nothing but what they open are declared alike. -/
theorem thread_recast_inside (h : Inside k base opened.length s) (hk : k < s.next)
    (hqs : ∀ q ∈ qs, q ∈ s.table.names) (hb : Program.brackets opened es = some opened') :
    Program.thread State.step (s.recast k qs) es =
        ((Program.thread State.step s es).1, (Program.thread State.step s es).2.recast k qs) ∧
      Inside k base opened'.length (Program.thread State.step s es).2 := by
  induction es generalizing s opened with
  | nil =>
    cases hb
    exact ⟨rfl, h⟩
  | cons e es ih =>
    obtain ⟨mid, hmid, hrest⟩ := Option.bind_eq_some_iff.1 hb
    have hstep := step_recast hk hqs (h.head_ne hmid)
    have hnext := Nat.lt_of_lt_of_le hk (s.next_le_step e)
    have hnames : ∀ q ∈ qs, q ∈ (s.step e).2.table.names :=
      fun q hq => (s.mem_names_step e).2 (.inl (hqs q hq))
    obtain ⟨htail, hinside⟩ := ih (h.step hk hmid) hnext hnames hrest
    refine ⟨?_, hinside⟩
    rw [Program.thread, hstep, htail]
    rfl

/-- No open scope has the index `k`. -/
def Closed (k : Nat) (s : State) : Prop := ∀ f ∈ s.stack, f.index ≠ k

theorem Closed.step (h : Closed k s) (hk : k < s.next) (e : Element) : Closed k (s.step e).2 := by
  intro g hg
  rcases s.stack_step e with ⟨f, hf, hs, -⟩ | ⟨-, hs⟩ | ⟨hs, -⟩
  · rw [hs] at hg
    rcases List.mem_cons.1 hg with rfl | hg
    · rw [hf]
      exact Nat.ne_of_gt hk
    · exact h g hg
  · rw [hs] at hg
    exact h g (List.mem_of_mem_tail hg)
  · rw [hs] at hg
    exact h g hg

theorem Closed.thread (h : Closed k s) (hk : k < s.next) (es : List Element) :
    Closed k (Program.thread State.step s es).2 := by
  induction es generalizing s with
  | nil => exact h
  | cons e es ih => exact ih (h.step hk e) (Nat.lt_of_lt_of_le hk (s.next_le_step e))

/-- Where the scope with the index `k` is not open, everything is declared alike. -/
theorem thread_recast_closed (h : Closed k s) (hk : k < s.next)
    (hqs : ∀ q ∈ qs, q ∈ s.table.names) (es : List Element) :
    Program.thread State.step (s.recast k qs) es =
      ((Program.thread State.step s es).1, (Program.thread State.step s es).2.recast k qs) := by
  induction es generalizing s with
  | nil => rfl
  | cons e es ih =>
    have hstep := step_recast (e := e) hk hqs fun _ f hf => h f (List.mem_of_head? hf)
    have hnext := Nat.lt_of_lt_of_le hk (s.next_le_step e)
    have hnames : ∀ q ∈ qs, q ∈ (s.step e).2.table.names :=
      fun q hq => (s.mem_names_step e).2 (.inl (hqs q hq))
    rw [Program.thread, hstep, ih (h.step hk e) hnext hnames]
    rfl

theorem declares_path (hs : Framed s.stack) (hk : k < s.next) (hnames : e.PlainNames)
    (hx : Scope.Unsegmented x) (h : Scope.path (k :: ks) ++ x ∈ s.declares e) :
    s.indices = k :: ks ∧ ∃ l, e.stmt = .label l ∧ l.isPublic = false ∧ l.name = x := by
  obtain ⟨loc, stmt⟩ := e
  cases stmt with
  | label l =>
    have hq : Scope.path (k :: ks) ++ x =
        if l.isPublic then l.name else s.scope ++ l.name := List.mem_singleton.1 h
    split at hq
    · have hpublic : Scope.path (k :: ks) ++ x = Scope.path [] ++ l.name :=
        hq.trans String.empty_append.symm
      cases (Scope.path_append_inj hx hnames.label hpublic).1
    · rename_i hl
      rw [scope_eq hs] at hq
      obtain ⟨hks, rfl⟩ := Scope.path_append_inj hx hnames.label hq
      exact ⟨hks.symm, l, rfl, Bool.eq_false_of_not_eq_true hl, rfl⟩
  | call c =>
    unfold declares at h
    dsimp only at h
    split at h
    · obtain ⟨p, hp, hq⟩ := List.mem_map.1 h
      rw [enter_fst] at hq
      obtain ⟨hks, -⟩ := Scope.path_append_inj (hnames p hp) hx hq
      exact (Nat.ne_of_gt hk (List.cons.inj hks).1).elim
    · cases h
  | _ => cases h

end
end
end State
end Declarations
end Z80Asm
