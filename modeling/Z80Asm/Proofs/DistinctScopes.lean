import Z80Asm.Proofs.Delimiters

/-! Scopes and symbols are told apart. Every scope has an index of its own, the text of a symbol is
read in one way only, and a label is reported exactly if its name is taken in its scope. -/

namespace Z80Asm
set_option autoImplicit true

namespace Scope

theorem strip_of_some (h : afterSegment? cs = some rest) : strip cs = strip rest := by
  rw [strip]
  split
  · rename_i rest' h'
    cases h.symm.trans h'
    rfl
  · rename_i h'
    cases h.symm.trans h'

theorem strip_of_none (h : afterSegment? cs = none) : strip cs = cs := by
  rw [strip]
  split
  · rename_i rest h'
    cases h.symm.trans h'
  · rfl

theorem strip_path (hx : Unsegmented x) (is : List Nat) :
    strip ((path is).toList ++ x.toList) = x.toList := by
  induction is with
  | nil => exact strip_of_none hx
  | cons i is ih => rw [strip_of_some (afterSegment?_path i is x.toList), ih]

theorem bare_path_append (hx : Unsegmented x) (is : List Nat) : bare (path is ++ x) = x := by
  rw [bare, String.toList_append, strip_path hx, String.ofList_toList]

theorem ofName_path_append (hx : Unsegmented x) (is : List Nat) :
    ofName (path is ++ x) = path is := by
  rw [ofName, String.toList_append, strip_path hx, List.length_append, Nat.add_sub_cancel,
    List.take_left, String.ofList_toList]

end Scope

namespace SymbolTable

def site? (t : SymbolTable) (name : String) : Option Location := (t.find? name).map Symbol.loc

theorem site?_eq (t : SymbolTable) (name : String) :
    t.site? name = (t.outline.find? (·.1 = name)).map Prod.snd := by
  rw [outline, List.find?_map, Option.map_map]
  rfl

theorem site?_isSome (t : SymbolTable) (name : String) :
    (t.site? name).isSome ↔ name ∈ t.names := by
  rw [site?, Option.isSome_map, find?_isSome]

end SymbolTable

namespace Program

def openedBefore (es : List Element) (n : Nat) : Nat := (es.take n).countP fun e => opens e.stmt

/-- The scope that is opened somewhere; the outermost is empty. -/
def scopeOf (es : List Element) : Option Nat → String
  | none => ""
  | some m => (scopeAt? es m).getD ""

/-- Public labels are declared in the outermost scope. -/
def labelScope (es : List Element) (n : Nat) (l : Label) : Option Nat :=
  if l.isPublic then none else (openers es n).head?

/-- What the element at `n` declares, by scope and name. -/
def declarations (es : List Element) (n : Nat) : List (Option Nat × String) :=
  match es[n]?.map Element.stmt with
  | some (.label l) => [(labelScope es n l, l.name)]
  | some (.call c) => if c.expanded then c.params.map (some n, ·) else []
  | _ => []

/-- The first element before `n` that declares a name in a scope. -/
def declaredBefore? (es : List Element) (n : Nat) (d : Option Nat × String) : Option Nat :=
  (List.range n).find? fun m => d ∈ declarations es m

def locAt (es : List Element) (n : Nat) : Location := (es[n]?.map Element.loc).getD {}

/-- The report of the element at `n`, if it is a label and its name is taken in its scope. -/
def duplicate? (es : List Element) (n : Nat) : Option Diagnostic :=
  match es[n]?.map Element.stmt with
  | some (.label l) =>
    (declaredBefore? es n (labelScope es n l, l.name)).map fun m =>
      ⟨.duplicateSymbol l.name (locAt es m), locAt es n⟩
  | _ => none

section
variable {es : List Element}

theorem openedBefore_succ (h : es[n]? = some e) :
    openedBefore es (n + 1) = openedBefore es n + if opens e.stmt then 1 else 0 := by
  rw [openedBefore, List.take_add_one, h, List.countP_append]
  exact congrArg _ (List.countP_singleton ..)

theorem openedBefore_succ_of_none (h : es[n]? = none) :
    openedBefore es (n + 1) = openedBefore es n := by
  rw [openedBefore, List.take_add_one, h]
  exact congrArg _ (List.append_nil _)

theorem openers_succ_of_opens (h : es[m]? = some e) (ho : opens e.stmt = true) :
    openers es (m + 1) = m :: openers es m := by
  rw [openers, h]
  exact if_pos ho

theorem delimiter?_of_opens (h : opens stmt = true) : ∃ k, stmt.delimiter? = some (.opening k) := by
  cases stmt with
  | block => exact ⟨false, rfl⟩
  | call c => exact ⟨true, if_pos h⟩
  | _ => cases h

theorem exists_declares_iff : (∃ q, Declares es s x q) ↔ ∃ n, (s, x) ∈ declarations es n := by
  constructor
  · rintro ⟨q, h⟩
    cases h with
    | @label loc n l he hl =>
      refine ⟨n, ?_⟩
      rw [declarations, he, Option.map_some]
      dsimp only
      rw [labelScope, if_neg (Bool.eq_false_iff.1 hl)]
      exact List.mem_singleton_self _
    | @publicLabel loc n l he hl =>
      refine ⟨n, ?_⟩
      rw [declarations, he, Option.map_some]
      dsimp only
      rw [labelScope, if_pos hl]
      exact List.mem_singleton_self _
    | @param loc p n c he hc hp =>
      refine ⟨n, ?_⟩
      rw [declarations, he, Option.map_some]
      dsimp only
      rw [if_pos hc]
      exact List.mem_map_of_mem hp
  · rintro ⟨n, h⟩
    unfold declarations at h
    split at h
    · rename_i l hl
      obtain ⟨⟨loc, stmt⟩, he, rfl⟩ := Option.map_eq_some_iff.1 hl
      obtain ⟨rfl, rfl⟩ := Prod.mk.inj (List.mem_singleton.1 h)
      rw [labelScope]
      split
      · rename_i hpublic
        exact ⟨_, .publicLabel he hpublic⟩
      · rename_i hpublic
        exact ⟨_, .label he (Bool.eq_false_iff.2 hpublic)⟩
    · rename_i c hc
      obtain ⟨⟨loc, stmt⟩, he, rfl⟩ := Option.map_eq_some_iff.1 hc
      split at h
      · rename_i hexp
        obtain ⟨p, hp, heq⟩ := List.mem_map.1 h
        obtain ⟨rfl, rfl⟩ := Prod.mk.inj heq
        exact ⟨_, .param he hexp hp⟩
      · cases h
    · cases h

theorem duplicate?_of_not_label (h : es[n]? = some e) (hl : ∀ l, e.stmt ≠ .label l) :
    duplicate? es n = none := by
  rw [duplicate?, h, Option.map_some]
  split
  · rename_i l hstmt
    exact (hl l (Option.some.inj hstmt)).elim
  · rfl

end
end Program

def Problem.isDuplicateSymbol : Problem → Bool
  | duplicateSymbol .. => true
  | _ => false

theorem Problem.not_isDuplicateSymbol (problem : Problem) (h : problem.aboutDelimiter = true) :
    problem.isDuplicateSymbol = false := by
  cases problem <;> first | rfl | cases h

namespace Declarations
open Program

namespace State

theorem next_step (s : State) (e : Element) :
    (s.step e).2.next = s.next + if opens (s.step e).1 then 1 else 0 := by
  obtain ⟨loc, stmt⟩ := e
  cases stmt with
  | call c =>
    rw [step]
    dsimp only
    split
    · rename_i hc
      rw [next_enterCall, if_pos]
      exact hc
    · rename_i hc
      have hnone : (if opens (.call c) then 1 else 0) = 0 := if_neg hc
      rw [hnone]
      rfl
  | endBlock => exact s.next_leave false loc
  | endCall => exact s.next_leave true loc
  | label l => exact (declare_frame s _ _ _ _).1
  | _ => rfl

theorem site?_declare (s : State) (name : String) (v : Value) (loc : Location) (taken : Problem) :
    (s.declare name v loc taken).table.site? q =
      (s.table.site? q).or (if q = name then some loc else none) := by
  by_cases hn : name ∈ s.table.names
  · rw [declare_of_mem hn]
    by_cases hq : q = name
    · subst hq
      obtain ⟨site, hs⟩ := Option.isSome_iff_exists.1 ((s.table.site?_isSome q).2 hn)
      rw [hs]
      exact hs
    · rw [if_neg hq, Option.or_none]
      rfl
  · obtain ⟨t, hd, ho, -⟩ := declare_of_not_mem hn v loc taken
    rw [hd, SymbolTable.site?_eq, ho, List.find?_append, Option.map_or, ← SymbolTable.site?_eq]
    congr 1
    by_cases hq : q = name
    · rw [if_pos hq, List.find?_singleton, if_pos (decide_eq_true hq.symm)]
      rfl
    · rw [if_neg hq, List.find?_singleton, if_neg fun h => hq (of_decide_eq_true h).symm]
      rfl

theorem site?_bind (s : State) (c : MacroCall) (caller scope : String) (loc : Location)
    (params : List String) (args : List Value) :
    (s.bind c caller scope loc params args).table.site? q =
      (s.table.site? q).or (if q ∈ params.map (scope ++ ·) then some loc else none) := by
  induction params generalizing s args with
  | nil => exact (Option.or_none).symm
  | cons p params ih =>
    unfold State.bind
    rw [ih, site?_declare, Option.or_assoc]
    congr 1
    rw [List.map_cons]
    by_cases hp : q = scope ++ p
    · rw [if_pos hp, if_pos (List.mem_cons.2 (.inl hp))]
      rfl
    · have hmem : q ∈ (scope ++ p) :: params.map (scope ++ ·) ↔ q ∈ params.map (scope ++ ·) :=
        List.mem_cons.trans (or_iff_right hp)
      rw [if_neg hp, Option.none_or, if_congr hmem rfl rfl]

theorem site?_step (s : State) (e : Element) :
    (s.step e).2.table.site? q =
      (s.table.site? q).or (if q ∈ s.declares e then some e.loc else none) := by
  have hsame (s' : State) (ht : s'.table = s.table) (hd : s.declares e = []) :
      s'.table.site? q = (s.table.site? q).or (if q ∈ s.declares e then some e.loc else none) := by
    rw [ht, hd, if_neg List.not_mem_nil, Option.or_none]
  obtain ⟨loc, stmt⟩ := e
  cases stmt with
  | label l =>
    have hmem : q ∈ s.declares ⟨loc, .label l⟩ ↔ q = (s.declareLabel l loc).1.symbol :=
      List.mem_singleton
    rw [if_congr hmem rfl rfl]
    exact s.site?_declare _ _ _ _
  | call c =>
    by_cases hc : c.expanded = true
    · have hmem : q ∈ s.declares ⟨loc, .call c⟩ ↔
          q ∈ c.params.map ((s.enter true loc).1 ++ ·) := by
        rw [declares]
        dsimp only
        rw [if_pos hc]
      rw [step_call s hc, table_enterCall, site?_bind, if_congr hmem rfl rfl]
      rfl
    · apply hsame
      · rw [step]
        dsimp only
        rw [if_neg hc]
      · rw [declares]
        exact if_neg hc
  | endBlock => exact hsame _ (s.table_leave false loc) rfl
  | endCall => exact hsame _ (s.table_leave true loc) rfl
  | _ => exact hsame s rfl rfl

theorem reported_leave (s : State) (isCall : Bool) (loc : Location)
    (h : ∀ problem, problem.aboutDelimiter = true → p problem = false) :
    (s.leave isCall loc).2.reported p = s.reported p := by
  unfold leave
  split
  · apply reported_report
    apply h
    split <;> rfl
  · rename_i frame outer _
    dsimp only
    split
    · rfl
    · exact reported_report _ (h _ rfl) loc

theorem reported_declareLabel (s : State) (l : Label) (loc : Location) :
    (s.declareLabel l loc).2.reported Problem.isDuplicateSymbol =
      s.reported Problem.isDuplicateSymbol ++
        ((s.table.site? (s.declareLabel l loc).1.symbol).map fun site =>
          (⟨.duplicateSymbol l.name site, loc⟩ : Diagnostic)).toList := by
  generalize hq : (s.declareLabel l loc).1.symbol = q
  have hdeclare : (s.declareLabel l loc).2 =
      s.declare q .unresolved loc (.duplicateSymbol l.name (s.table.loc q)) := by
    rw [← hq]
    rfl
  rw [hdeclare]
  cases hsite : s.table.site? q with
  | none =>
    have hn : q ∉ s.table.names := by
      rw [← SymbolTable.site?_isSome, hsite]
      exact Bool.false_ne_true
    obtain ⟨t, hd, -⟩ := declare_of_not_mem hn .unresolved loc
      (.duplicateSymbol l.name (s.table.loc q))
    rw [hd]
    exact (List.append_nil _).symm
  | some site =>
    have hn : q ∈ s.table.names := (s.table.site?_isSome q).1 (hsite ▸ rfl)
    have hloc : s.table.loc q = site := congrArg (·.getD {}) hsite
    rw [declare_of_mem hn, hloc, reported, report, List.filter_append]
    rfl

theorem reported_step_of_not_label (s : State) (h : ∀ l, e.stmt ≠ .label l) :
    (s.step e).2.reported Problem.isDuplicateSymbol = s.reported Problem.isDuplicateSymbol := by
  obtain ⟨loc, stmt⟩ := e
  cases stmt with
  | label l => exact (h l rfl).elim
  | call c =>
    rw [step]
    dsimp only
    split
    · exact s.reported_enterCall c loc (fun _ _ => rfl) fun _ _ _ => rfl
    · rfl
  | endBlock => exact s.reported_leave false loc Problem.not_isDuplicateSymbol
  | endCall => exact s.reported_leave true loc Problem.not_isDuplicateSymbol
  | _ => rfl

end State

section
variable {es : List Element}

theorem getElem?_declared_none {n : Nat} (he : es[n]? = none) : (declared es)[n]? = none := by
  rw [getElem?_declared, he]
  rfl

theorem getElem?_declared_some {n : Nat} (he : es[n]? = some e) :
    (declared es)[n]? = some { e with stmt := ((State.through es n).step e).1 } := by
  rw [getElem?_declared, he]
  rfl

/-- A scope has the index that counts those opened before it. -/
theorem next_through (es : List Element) (n : Nat) :
    (State.through es n).next = openedBefore (declared es) n := by
  induction n with
  | zero => rfl
  | succ n ih =>
    cases he : es[n]? with
    | none =>
      rw [State.through_succ_of_none he, openedBefore_succ_of_none (getElem?_declared_none he), ih]
    | some e =>
      rw [State.through_succ he, State.next_step, openedBefore_succ (getElem?_declared_some he), ih]

theorem openedBefore_lt (h : Opened (declared es) (some m)) (hlt : m < n) :
    openedBefore (declared es) m < openedBefore (declared es) n := by
  obtain ⟨e, he, ho⟩ := h
  rw [← next_through, ← next_through]
  exact State.next_lt_through he ho hlt

section
variable (hnames : ∀ e ∈ es, e.PlainNames)
include hnames

theorem scopeOf_declared (hs : Opened (declared es) s) :
    scopeOf (declared es) s = scopePath es s := by
  cases s with
  | none => rfl
  | some m =>
    obtain ⟨e, he, ho⟩ := hs
    obtain ⟨k, hk⟩ := delimiter?_of_opens ho
    have hopening : delimiterAt? (declared es) m = some (.opening k) := by
      rw [delimiterAt?, he]
      exact hk
    rw [scopeOf, scopeAt?_opening hopening, Option.getD_some, scope_through hnames,
      openers_succ_of_opens he ho]
    rfl

/-- A scope is written as its index and the scope around it. -/
theorem scopeOf_some (h : Opened (declared es) (some m)) :
    scopeOf (declared es) (some m) =
      "%" ++ toString (openedBefore (declared es) m) ++ "_" ++
        scopeOf (declared es) (openers (declared es) m).head? := by
  rw [scopeOf_declared hnames h, scopeOf_declared hnames (.head _ m), ← next_through]
  rw [scopePath, scopePath, chain_head]
  rfl

theorem scopeOf_inj (hs : Opened (declared es) s) (hs' : Opened (declared es) s')
    (h : scopeOf (declared es) s = scopeOf (declared es) s') : s = s' := by
  have hempty : Scope.Unsegmented "" := rfl
  rw [scopeOf_declared hnames hs, scopeOf_declared hnames hs'] at h
  exact (scopePath_inj hs hs' hempty hempty (congrArg (· ++ "") h)).1

theorem declares_through (he : es[n]? = some e) :
    (State.through es n).declares e =
      (declarations (declared es) n).map fun d => scopePath es d.1 ++ d.2 := by
  rw [declarations, getElem?_declared, he]
  obtain ⟨loc, stmt⟩ := e
  cases stmt with
  | label l =>
    change [if l.isPublic then l.name else (State.through es n).scope ++ l.name] =
      [scopePath es (if l.isPublic then none else (openers (declared es) n).head?) ++ l.name]
    rw [scope_through hnames]
    split
    · exact congrArg (fun x => [x]) String.empty_append.symm
    · rfl
  | call c =>
    unfold State.declares
    dsimp only [Option.map_some]
    by_cases hc : c.expanded = true
    · rw [State.step_call _ hc, if_pos hc]
      dsimp only
      rw [if_pos hc, List.map_map, State.enter_fst, State.indices_through]
      rfl
    · have hstill : ((State.through es n).step ⟨loc, .call c⟩).1 = .call c := by
        rw [State.step]
        dsimp only
        rw [if_neg hc]
      rw [hstill, if_neg hc]
      dsimp only
      rw [if_neg hc]
      rfl
  | _ => rfl

theorem mem_declares_through (he : es[m]? = some e) (hs : Opened (declared es) s)
    (hx : Scope.Unsegmented x) :
    scopePath es s ++ x ∈ (State.through es m).declares e ↔
      (s, x) ∈ declarations (declared es) m := by
  rw [declares_through hnames he, List.mem_map]
  constructor
  · rintro ⟨⟨s', y⟩, hd, heq⟩
    obtain ⟨q, hq⟩ := exists_declares_iff.2 ⟨m, hd⟩
    obtain ⟨rfl, rfl⟩ := scopePath_inj hq.opened hs (symbol_of_declares hnames hq).2 hx heq
    exact hd
  · intro hd
    exact ⟨_, hd, rfl⟩

theorem site?_through (hs : Opened (declared es) s) (hx : Scope.Unsegmented x) (n : Nat) :
    (State.through es n).table.site? (scopePath es s ++ x) =
      (declaredBefore? (declared es) n (s, x)).map (locAt (declared es)) := by
  induction n with
  | zero => rfl
  | succ n ih =>
    rw [declaredBefore?, List.range_succ, List.find?_append, Option.map_or, ← declaredBefore?, ← ih]
    cases he : es[n]? with
    | none =>
      rw [State.through_succ_of_none he, List.find?_singleton, declarations,
        getElem?_declared_none he]
      exact Option.or_none.symm
    | some e =>
      rw [State.through_succ he, State.site?_step, List.find?_singleton]
      congr 1
      have hmem := mem_declares_through hnames he hs hx
      by_cases hd : (s, x) ∈ declarations (declared es) n
      · rw [if_pos (hmem.2 hd), if_pos (decide_eq_true hd), Option.map_some, locAt,
          getElem?_declared_some he]
        rfl
      · rw [if_neg (mt hmem.1 hd), if_neg fun h => hd (of_decide_eq_true h)]
        rfl

/-- The report of a label, by the place where its symbol stands in the table. -/
theorem duplicate?_declared {loc : Location} (he : es[n]? = some ⟨loc, .label l⟩) :
    duplicate? (declared es) n =
      ((State.through es n).table.site? ((State.through es n).declareLabel l loc).1.symbol).map
        fun site => ⟨.duplicateSymbol l.name site, loc⟩ := by
  have hd : (declared es)[n]? =
      some ⟨loc, .label ((State.through es n).declareLabel l loc).1⟩ :=
    getElem?_declared_some he
  have hdeclares := declares_through hnames he
  rw [declarations, hd] at hdeclares
  have hsymbol := (List.cons.inj hdeclares).1
  dsimp only at hsymbol
  have hplain := (hnames _ (List.mem_of_getElem? he)).label
  have hscope : Opened (declared es) (labelScope (declared es) n l) := by
    unfold labelScope
    split
    · trivial
    · exact .head _ n
  change _ = scopePath es (labelScope (declared es) n l) ++ l.name at hsymbol
  rw [hsymbol, site?_through hnames hscope hplain, Option.map_map, duplicate?, locAt, hd]
  rfl

theorem reported_through (n : Nat) :
    (State.through es n).reported Problem.isDuplicateSymbol =
      (List.range n).filterMap (duplicate? (declared es)) := by
  induction n with
  | zero => rfl
  | succ n ih =>
    rw [List.range_succ, List.filterMap_append, ← ih]
    cases he : es[n]? with
    | none =>
      rw [State.through_succ_of_none he, List.filterMap_cons, duplicate?,
        getElem?_declared_none he]
      exact (List.append_nil _).symm
    | some e =>
      have hlast : [n].filterMap (duplicate? (declared es)) =
          (duplicate? (declared es) n).toList := rfl
      rw [State.through_succ he, hlast]
      by_cases hlabel : ∃ l, e.stmt = .label l
      · obtain ⟨l, hlabel⟩ := hlabel
        obtain ⟨loc, stmt⟩ := e
        cases hlabel
        rw [duplicate?_declared hnames he]
        exact (State.through es n).reported_declareLabel l loc
      · have hother : ∀ l, e.stmt ≠ .label l := fun l h => hlabel ⟨l, h⟩
        have hd := getElem?_declared_some he
        rw [State.reported_step_of_not_label _ hother,
          duplicate?_of_not_label hd (State.step_not_label _ hother)]
        exact (List.append_nil _).symm

end
end

theorem collect_duplicates {es : List Element} (hnames : ∀ e ∈ outside es, e.PlainNames) :
    ((collect es).diagnostics.filter fun d => d.problem.isDuplicateSymbol) =
      (List.range (declared (outside es)).length).filterMap
        (duplicate? (declared (outside es))) := by
  have hfinish : ∀ (frames : List Frame), ((frames.map fun f =>
      (⟨if f.isCall then .unclosedCall else .unclosedBlock, f.loc⟩ : Diagnostic)).filter
        fun d => d.problem.isDuplicateSymbol) = [] := by
    intro frames
    apply List.filter_eq_nil_iff.2
    rintro _ hd
    obtain ⟨f, -, rfl⟩ := List.mem_map.1 hd
    dsimp only
    split <;> exact Bool.false_ne_true
  have hall : (thread State.step {} (outside es)).2 =
      State.through (outside es) (declared (outside es)).length := by
    rw [declared, length_thread, State.through, List.take_length]
  rw [collect_diagnostics, State.finish_diagnostics, List.filter_append, hfinish, List.append_nil,
    hall]
  exact reported_through hnames _

/-- Every scope is written as an index that no scope before it has, in front of the scope around it,
so that no two are the same. The scope and the name of a symbol are read off its text. A label is
reported exactly if its name is declared in its scope before it, with the place where it is declared
first. Names need only not begin with a segment, so they may begin with a percent sign. -/
theorem scopes_distinct (hnames : ∀ e ∈ outside es, e.PlainNames) :
    let program := outside (collect es).program
    (∀ m, Opened program (some m) →
        scopeOf program (some m) =
            "%" ++ toString (openedBefore program m) ++ "_" ++
              scopeOf program (openers program m).head? ∧
          ∀ m' < m, Opened program (some m') →
            openedBefore program m' < openedBefore program m) ∧
      (∀ s s', Opened program s → Opened program s' →
        scopeOf program s = scopeOf program s' → s = s') ∧
      (∀ q, q ∈ (collect es).table.names ↔ ∃ s x, Declares program s x q) ∧
      (∀ s x q, Declares program s x q →
        q = scopeOf program s ++ x ∧ Scope.ofName q = scopeOf program s ∧ Scope.bare q = x) ∧
      ((collect es).diagnostics.filter fun d => d.problem.isDuplicateSymbol) =
        (List.range program.length).filterMap (duplicate? program) := by
  intro program
  have hprogram : program = declared (outside es) := outside_collect es
  rw [hprogram]
  refine ⟨?_, ?_, ?_, ?_, collect_duplicates hnames⟩
  · intro m hm
    exact ⟨scopeOf_some hnames hm, fun m' hlt hm' => openedBefore_lt hm' hlt⟩
  · intro s s' hs hs' h
    exact scopeOf_inj hnames hs hs' h
  · intro q
    rw [collect_table]
    exact mem_names_iff (outside es)
  · intro s x q h
    obtain ⟨hq, hx⟩ := symbol_of_declares hnames h
    have hscope := scopeOf_declared hnames h.opened
    rw [hscope, hq]
    exact ⟨rfl, Scope.ofName_path_append hx _, Scope.bare_path_append hx _⟩

/-- A call that is not closed, in a block that is closed as if it were a call. -/
def tangled : List Element :=
  [⟨⟨"t", 1⟩, .label { name := "x", isPublic := true }⟩, ⟨⟨"t", 2⟩, .block ""⟩,
    ⟨⟨"t", 3⟩, .label { name := "x" }⟩, ⟨⟨"t", 4⟩, .endCall "m" ""⟩,
    ⟨⟨"t", 5⟩, .label { name := "x" }⟩,
    ⟨⟨"t", 6⟩, .call { name := "m", args := [], params := ["p"], expanded := true }⟩,
    ⟨⟨"t", 7⟩, .label { name := "p" }⟩]

theorem scopes_distinct_tangled :
    (∀ e ∈ outside tangled, e.PlainNames) ∧
      scopeOf (outside (collect tangled).program) (some 1) ≠
        scopeOf (outside (collect tangled).program) (some 5) ∧
      ((collect tangled).diagnostics.filter fun d => d.problem.isDuplicateSymbol) =
        [⟨.duplicateSymbol "x" ⟨"t", 1⟩, ⟨"t", 5⟩⟩, ⟨.duplicateSymbol "p" ⟨"t", 6⟩, ⟨"t", 7⟩⟩] := by
  have hnames : ∀ e ∈ outside tangled, e.PlainNames := by decide +kernel
  obtain ⟨-, hinj, -, -, hreported⟩ := scopes_distinct hnames
  refine ⟨hnames, ?_, ?_⟩
  · intro h
    have hblock : Opened (outside (collect tangled).program) (some 1) := ⟨_, rfl, rfl⟩
    have hcall : Opened (outside (collect tangled).program) (some 5) := ⟨_, rfl, rfl⟩
    cases hinj _ _ hblock hcall h
  · rw [hreported]
    cbv

end Declarations
end Z80Asm
