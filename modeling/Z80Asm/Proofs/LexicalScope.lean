import Z80Asm.Proofs.OpenScopes
import Z80Asm.Proofs.Recasting

/-! Names have lexical scope. Scopes are told apart by where they are opened, and a name means its
declaration in the innermost scope around it that declares it. -/

namespace Z80Asm
set_option autoImplicit true

namespace Program

def opens : Statement → Bool
  | .block _ => true
  | .call c => c.expanded
  | _ => false

/-- Where the scopes around the element at `n` have been opened, innermost first. -/
def openers (es : List Element) : Nat → List Nat
  | 0 => []
  | n + 1 =>
    match es[n]? with
    | none => openers es n
    | some e =>
      if opens e.stmt then n :: openers es n
      else if isEnd e.stmt then (openers es n).tail
      else openers es n

/-- The scopes around the element at `n`, innermost first. One that is opened somewhere is known by
the place, and the outermost by none. -/
def scopesAround (es : List Element) (n : Nat) : List (Option Nat) :=
  (openers es n).map some ++ [none]

/-- What is declared in which scope, by which name and as which symbol. -/
inductive Declares (es : List Element) : Option Nat → String → String → Prop where
  | label {n : Nat} {l : Label} : es[n]? = some ⟨loc, .label l⟩ → l.isPublic = false →
      Declares es (openers es n).head? l.name l.symbol
  | publicLabel {n : Nat} {l : Label} : es[n]? = some ⟨loc, .label l⟩ → l.isPublic = true →
      Declares es none l.name l.symbol
  | param {n : Nat} {c : MacroCall} : es[n]? = some ⟨loc, .call c⟩ → c.expanded = true →
      p ∈ c.params → Declares es (some n) p (c.scope ++ p)

/-- A name means the symbol that it is declared as in the first scope that declares it. -/
inductive Means (es : List Element) (x : String) : List (Option Nat) → String → Prop where
  | here : Declares es scope x q → Means es x (scope :: outer) q
  | outward : (∀ q, ¬ Declares es scope x q) → Means es x outer q → Means es x (scope :: outer) q

section
variable {es : List Element}

theorem openers_suffix (h : m :: ms <:+ openers es n) :
    m < n ∧ ms = openers es m ∧ ∃ e, es[m]? = some e ∧ opens e.stmt = true := by
  induction n with
  | zero => cases List.suffix_nil.1 h
  | succ n ih =>
    have hmono {k : Nat} {p : Prop} (h : k < n ∧ p) : k < n + 1 ∧ p :=
      ⟨Nat.lt_succ_of_lt h.1, h.2⟩
    unfold openers at h
    split at h
    · exact hmono (ih h)
    · rename_i e he
      split at h
      · rename_i ho
        rcases List.suffix_cons_iff.1 h with heq | hs
        · obtain ⟨rfl, rfl⟩ := List.cons.inj heq
          exact ⟨Nat.lt_succ_self m, rfl, e, he, ho⟩
        · exact hmono (ih hs)
      · split at h
        · exact hmono (ih (h.trans (List.tail_suffix _)))
        · exact hmono (ih h)

theorem openers_cons (h : openers es n = m :: ms) :
    m < n ∧ ms = openers es m ∧ ∃ e, es[m]? = some e ∧ opens e.stmt = true :=
  openers_suffix (h ▸ List.suffix_refl _)

/-- Where a scope and those around it are opened. -/
def chain (es : List Element) : Option Nat → List Nat
  | none => []
  | some m => m :: openers es m

theorem chain_head (es : List Element) (n : Nat) :
    chain es (openers es n).head? = openers es n := by
  cases h : openers es n with
  | nil => rfl
  | cons m ms =>
    obtain ⟨-, rfl, -⟩ := openers_cons h
    rfl

def Opened (es : List Element) : Option Nat → Prop
  | none => True
  | some m => ∃ e, es[m]? = some e ∧ opens e.stmt = true

theorem Opened.head (es : List Element) (n : Nat) : Opened es (openers es n).head? := by
  cases h : openers es n with
  | nil => trivial
  | cons m ms => exact (openers_cons h).2.2

theorem Declares.opened (h : Declares es s x q) : Opened es s := by
  cases h with
  | label => exact .head es _
  | publicLabel => trivial
  | param he hc => exact ⟨_, he, hc⟩

theorem Means.declares (h : Means es x scopes q) : ∃ s ∈ scopes, Declares es s x q := by
  induction h with
  | here h => exact ⟨_, List.mem_cons_self, h⟩
  | outward _ _ ih =>
    obtain ⟨s, hs, h⟩ := ih
    exact ⟨s, List.mem_cons_of_mem _ hs, h⟩

theorem exists_means (hs : s ∈ scopes) (h : Declares es s x q) : ∃ q', Means es x scopes q' := by
  induction scopes with
  | nil => cases hs
  | cons a scopes ih =>
    by_cases ha : ∃ q', Declares es a x q'
    · obtain ⟨q', ha⟩ := ha
      exact ⟨q', .here ha⟩
    · rcases List.mem_cons.1 hs with rfl | hs
      · exact (ha ⟨q, h⟩).elim
      · obtain ⟨q', hq'⟩ := ih hs
        exact ⟨q', .outward (fun q h => ha ⟨q, h⟩) hq'⟩

end
end Program

namespace Declarations
open Program

theorem State.indices_step (s : State) (e : Element) :
    (s.step e).2.indices =
      if opens (s.step e).1 then s.next :: s.indices
      else if isEnd (s.step e).1 then s.indices.tail
      else s.indices := by
  obtain ⟨loc, stmt⟩ := e
  cases stmt with
  | call c =>
    unfold State.step
    dsimp only
    split
    · rename_i hc
      rw [indices, stack_enterCall, if_pos]
      · rfl
      · exact hc
    · rename_i hc
      exact (if_neg hc).symm
  | endBlock =>
    exact (congrArg (List.map Frame.index) (s.stack_leave false loc)).trans List.map_tail
  | endCall =>
    exact (congrArg (List.map Frame.index) (s.stack_leave true loc)).trans List.map_tail
  | label l => exact congrArg (List.map Frame.index) (declare_frame s _ _ _ _).2
  | _ => rfl

def State.through (es : List Element) (n : Nat) : State := (thread State.step {} (es.take n)).2

def declared (es : List Element) : List Element := (thread State.step {} es).1

section
variable {es : List Element}

theorem State.through_succ (h : es[n]? = some e) :
    through es (n + 1) = ((through es n).step e).2 :=
  thread_take_succ h

theorem State.through_succ_of_none (h : es[n]? = none) : through es (n + 1) = through es n := by
  rw [through, List.take_add_one, h]
  exact congrArg (fun es => (thread State.step {} es).2) (List.append_nil _)

theorem getElem?_declared (es : List Element) (n : Nat) :
    (declared es)[n]? =
      es[n]?.map fun e => { e with stmt := ((State.through es n).step e).1 } :=
  getElem?_thread State.step {} es n

theorem behind_declared (es : List Element) (n : Nat) :
    ScopeStack.behind ((declared es).take n) = (State.through es n).scopes := by
  rw [declared, take_thread, State.behind_thread_step]
  rfl

/-- The open scopes have the indices that were next where they were opened. -/
theorem State.indices_through (es : List Element) (n : Nat) :
    (through es n).indices = (openers (declared es) n).map fun m => (through es m).next := by
  induction n with
  | zero => rfl
  | succ n ih =>
    unfold openers
    rw [getElem?_declared]
    cases he : es[n]? with
    | none =>
      rw [through_succ_of_none he, ih]
      rfl
    | some e =>
      rw [through_succ he, indices_step, ih]
      dsimp only [Option.map_some]
      split
      · rfl
      · split
        · exact List.map_tail.symm
        · rfl

theorem State.next_le_through (es : List Element) (h : m ≤ n) :
    (through es m).next ≤ (through es n).next := by
  induction h with
  | refl => exact Nat.le_refl _
  | @step n _ ih =>
    refine Nat.le_trans ih ?_
    rw [through, through, List.take_add_one, thread_append]
    exact next_le_thread _ _

theorem State.next_lt_through (hm : (declared es)[m]? = some e) (ho : opens e.stmt = true)
    (h : m < n) : (through es m).next < (through es n).next := by
  refine Nat.lt_of_lt_of_le ?_ (next_le_through es h)
  rw [getElem?_declared] at hm
  obtain ⟨e₀, he₀, rfl⟩ := Option.map_eq_some_iff.1 hm
  rw [through_succ he₀]
  obtain ⟨loc, stmt⟩ := e₀
  cases stmt with
  | block => exact Nat.lt_succ_self _
  | call c =>
    unfold State.step at ho ⊢
    dsimp only at ho ⊢
    split
    · rw [next_enterCall]
      exact Nat.lt_succ_self _
    · rename_i hc
      rw [if_neg hc] at ho
      exact (hc ho).elim
  | _ => cases ho

theorem declared_label (h : (declared es)[n]? = some ⟨loc, .label l⟩) :
    ∃ l₀, es[n]? = some ⟨loc, .label l₀⟩ ∧ l = ((State.through es n).declareLabel l₀ loc).1 := by
  rw [getElem?_declared] at h
  obtain ⟨e, he, hstep⟩ := Option.map_eq_some_iff.1 h
  obtain ⟨rfl, hl⟩ := Element.mk.inj hstep
  by_cases hlabel : ∃ l₀, e.stmt = .label l₀
  · obtain ⟨l₀, hlabel⟩ := hlabel
    obtain ⟨loc, stmt⟩ := e
    cases hlabel
    exact ⟨l₀, he, (Statement.label.inj hl).symm⟩
  · exact (State.step_not_label _ (fun l₀ h₀ => hlabel ⟨l₀, h₀⟩) l hl).elim

theorem declared_call {c : MacroCall} (h : (declared es)[n]? = some ⟨loc, .call c⟩)
    (hc : c.expanded = true) :
    ∃ c₀ : MacroCall, es[n]? = some ⟨loc, .call c₀⟩ ∧ c₀.expanded = true ∧
      c = { c₀ with scope := ((State.through es n).enter true loc).1 } := by
  rw [getElem?_declared] at h
  obtain ⟨⟨loc, stmt⟩, he, hstep⟩ := Option.map_eq_some_iff.1 h
  obtain ⟨rfl, hcall⟩ := Element.mk.inj hstep
  cases stmt with
  | call c₀ =>
    unfold State.step at hcall
    dsimp only at hcall
    split at hcall
    · rename_i hc₀
      exact ⟨c₀, he, hc₀, (Statement.call.inj hcall).symm⟩
    · rename_i hc₀
      cases hcall
      exact (hc₀ hc).elim
  | _ => cases hcall

theorem State.mem_names_through (es : List Element) (n : Nat) :
    q ∈ (through es n).table.names ↔
      ∃ m, m < n ∧ ∃ e : Element, es[m]? = some e ∧ q ∈ (through es m).declares e := by
  induction n with
  | zero =>
    exact ⟨fun h => (List.not_mem_nil h).elim, fun ⟨m, hm, _⟩ => (Nat.not_lt_zero m hm).elim⟩
  | succ n ih =>
    cases he : es[n]? with
    | none =>
      rw [through_succ_of_none he, ih]
      refine exists_congr fun m => ⟨fun h => ⟨Nat.lt_succ_of_lt h.1, h.2⟩, ?_⟩
      rintro ⟨hm, a, ha, h⟩
      refine ⟨Nat.lt_of_le_of_ne (Nat.le_of_lt_succ hm) ?_, a, ha, h⟩
      rintro rfl
      cases he.symm.trans ha
    | some e =>
      rw [through_succ he, mem_names_step, ih]
      constructor
      · rintro (⟨m, hm, h⟩ | h)
        · exact ⟨m, Nat.lt_succ_of_lt hm, h⟩
        · exact ⟨n, Nat.lt_succ_self n, e, he, h⟩
      · rintro ⟨m, hm, a, ha, h⟩
        rcases Nat.lt_succ_iff_lt_or_eq.1 hm with hm | rfl
        · exact .inl ⟨m, hm, a, ha, h⟩
        · cases he.symm.trans ha
          exact .inr h

theorem mem_names_iff (es : List Element) :
    q ∈ (thread State.step {} es).2.table.names ↔ ∃ s x, Declares (declared es) s x q := by
  have hall : (thread State.step {} es).2 = State.through es es.length := by
    rw [State.through, List.take_length]
  rw [hall, State.mem_names_through]
  constructor
  · rintro ⟨m, -, ⟨loc, stmt⟩, he, hq⟩
    have hm := (getElem?_declared es m).trans (congrArg _ he)
    cases stmt with
    | label l =>
      rw [List.mem_singleton.1 hq]
      cases hl : l.isPublic with
      | true => exact ⟨_, _, .publicLabel hm hl⟩
      | false => exact ⟨_, _, .label hm hl⟩
    | call c =>
      unfold State.declares at hq
      dsimp only at hq
      split at hq
      · rename_i hc
        obtain ⟨p, hp, rfl⟩ := List.mem_map.1 hq
        unfold State.step at hm
        dsimp only [Option.map_some] at hm
        rw [if_pos hc] at hm
        have hparam := Declares.param hm hc hp
        exact ⟨_, p, hparam⟩
      · cases hq
    | _ => cases hq
  · rintro ⟨s, x, h⟩
    have hlt {m : Nat} {e : Element} (he : es[m]? = some e) : m < es.length :=
      (List.getElem?_eq_some_iff.1 he).1
    cases h with
    | label he _ | publicLabel he _ =>
      obtain ⟨l₀, he₀, rfl⟩ := declared_label he
      exact ⟨_, hlt he₀, _, he₀, List.mem_singleton_self _⟩
    | param he hc hp =>
      obtain ⟨c₀, he₀, hc₀, rfl⟩ := declared_call he hc
      refine ⟨_, hlt he₀, _, he₀, ?_⟩
      unfold State.declares
      dsimp only
      rw [if_pos hc₀]
      exact List.mem_map_of_mem hp

/-- The scope that is opened somewhere. -/
def scopePath (es : List Element) (s : Option Nat) : String :=
  Scope.path ((chain (declared es) s).map fun m => (State.through es m).next)

theorem scopePath_inj (hs : Opened (declared es) s) (hs' : Opened (declared es) s')
    (hx : Scope.Unsegmented x) (hy : Scope.Unsegmented y)
    (h : scopePath es s ++ x = scopePath es s' ++ y) : s = s' ∧ x = y := by
  obtain ⟨hpath, rfl⟩ := Scope.path_append_inj hx hy h
  refine ⟨?_, rfl⟩
  cases s with
  | none =>
    cases s' with
    | none => rfl
    | some m => cases hpath
  | some m =>
    cases s' with
    | none => cases hpath
    | some m' =>
      obtain ⟨e, he, ho⟩ := hs
      obtain ⟨e', he', ho'⟩ := hs'
      have hindex := (List.cons.inj hpath).1
      rcases Nat.lt_trichotomy m m' with hlt | rfl | hlt
      · exact (Nat.ne_of_lt (State.next_lt_through he ho hlt) hindex).elim
      · rfl
      · exact (Nat.ne_of_gt (State.next_lt_through he' ho' hlt) hindex).elim

section
variable (hnames : ∀ e ∈ es, e.PlainNames)
include hnames

theorem indexed_through (n : Nat) : State.Indexed 0 (State.through es n) :=
  (State.Indexed.initial 0).thread (fun e he => hnames e (List.mem_of_mem_take he))
    fun h => (Nat.not_lt_zero _ h).elim

theorem scope_through (n : Nat) :
    (State.through es n).scope = scopePath es (openers (declared es) n).head? := by
  rw [State.scope_eq (indexed_through hnames n).framed, State.indices_through, scopePath,
    chain_head]

theorem symbol_of_declares (h : Declares (declared es) s x q) :
    q = scopePath es s ++ x ∧ Scope.Unsegmented x := by
  cases h with
  | label he hl =>
    obtain ⟨l₀, he₀, rfl⟩ := declared_label he
    have hplain := (hnames _ (List.mem_of_getElem? he₀)).label
    refine ⟨?_, hplain⟩
    rw [← scope_through hnames]
    exact if_neg (Bool.eq_false_iff.1 hl)
  | publicLabel he hl =>
    obtain ⟨l₀, he₀, rfl⟩ := declared_label he
    have hplain := (hnames _ (List.mem_of_getElem? he₀)).label
    refine ⟨?_, hplain⟩
    exact (if_pos hl).trans String.empty_append.symm
  | param he hc hp =>
    obtain ⟨c₀, he₀, hc₀, rfl⟩ := declared_call he hc
    refine ⟨?_, hnames _ (List.mem_of_getElem? he₀) _ hp⟩
    rw [State.enter_fst, State.indices_through]
    rfl

theorem declares_iff (hs : Opened (declared es) s) (hx : Scope.Unsegmented x) :
    scopePath es s ++ x ∈ (thread State.step {} es).2.table.names ↔
      Declares (declared es) s x (scopePath es s ++ x) := by
  rw [mem_names_iff]
  refine ⟨?_, fun h => ⟨s, x, h⟩⟩
  rintro ⟨s', y, h⟩
  obtain ⟨hq, hy⟩ := symbol_of_declares hnames h
  obtain ⟨rfl, rfl⟩ := scopePath_inj hs h.opened hx hy hq
  exact h

theorem declares_unique (h : Declares (declared es) s x q)
    (h' : Declares (declared es) s' y q) : s' = s ∧ y = x := by
  obtain ⟨hq, hx⟩ := symbol_of_declares hnames h
  obtain ⟨hq', hy⟩ := symbol_of_declares hnames h'
  exact scopePath_inj h'.opened h.opened hy hx (hq'.symm.trans hq)

theorem means_cons (hs : Opened (declared es) s) (hx : Scope.Unsegmented x) :
    Means (declared es) x (s :: outer) q ↔
      if (thread State.step {} es).2.table.contains (scopePath es s ++ x) then
        scopePath es s ++ x = q
      else Means (declared es) x outer q := by
  have hhere := declares_iff hnames hs hx
  rw [← List.contains_iff_mem] at hhere
  split
  · rename_i hc
    have hdeclared := hhere.1 hc
    constructor
    · intro h
      cases h with
      | here h => exact (symbol_of_declares hnames h).1.symm
      | outward hnone => exact (hnone _ hdeclared).elim
    · rintro rfl
      exact .here hdeclared
  · rename_i hc
    have hnone : ∀ q, ¬ Declares (declared es) s x q := by
      intro q h
      have hq := (symbol_of_declares hnames h).1
      exact hc (hhere.2 (hq ▸ h))
    constructor
    · intro h
      cases h with
      | here h => exact (hnone _ h).elim
      | outward _ h => exact h
    · exact .outward hnone

/-- Looking a name up in a scope goes through the scopes around it from the inside out. -/
theorem resolve?_iff_means (hx : Scope.Unsegmented x) (hms : ms <:+ openers (declared es) n) :
    (thread State.step {} es).2.table.resolve?
        (Scope.path (ms.map fun m => (State.through es m).next)) x = some q ↔
      Means (declared es) x (ms.map some ++ [none]) q := by
  induction ms with
  | nil =>
    have hglobal : Opened (declared es) none := trivial
    rw [List.map_nil, List.map_nil, List.nil_append, means_cons hnames hglobal hx,
      SymbolTable.resolve?_path_nil]
    have hpath : scopePath es none = Scope.path [] := rfl
    rw [hpath]
    split
    · exact Option.some_inj
    · exact ⟨nofun, nofun⟩
  | cons m ms ih =>
    obtain ⟨-, hchain, he⟩ := openers_suffix hms
    have hopened : Opened (declared es) (some m) := he
    have hpath : scopePath es (some m) =
        Scope.path ((State.through es m).next :: ms.map fun m => (State.through es m).next) := by
      rw [scopePath, chain, ← hchain, List.map_cons]
    rw [List.map_cons, List.map_cons, List.cons_append, SymbolTable.resolve?_path,
      means_cons hnames hopened hx, hpath]
    split
    · exact Option.some_inj
    · exact ih ((List.suffix_cons m ms).trans hms)

end
end

/-- Names have lexical scope: in the scopes around an element a name means its declaration in the
innermost one that declares it, wherever the declaration stands in that scope, and nothing if there
is none. A symbol of a scope that is not around the element is never meant. -/
theorem resolve?_lexical (hnames : ∀ e ∈ outside es, e.PlainNames) (hx : Scope.Unsegmented x)
    (n : Nat) :
    let program := outside (collect es).program
    let found := (collect es).table.resolve? (ScopeStack.behind (program.take n)).current x
    (∀ q, found = some q ↔ Means program x (scopesAround program n) q) ∧
      (found = none ↔ ∀ s ∈ scopesAround program n, ∀ q, ¬ Declares program s x q) ∧
      ∀ q s y, found = some q → Declares program s y q → s ∈ scopesAround program n ∧ y = x := by
  intro program found
  have hprogram : program = declared (outside es) := outside_collect es
  have hfound : ∀ q, found = some q ↔ Means program x (scopesAround program n) q := by
    intro q
    have hscope : (ScopeStack.behind (program.take n)).current =
        Scope.path ((openers program n).map fun m => (State.through (outside es) m).next) := by
      rw [hprogram, behind_declared, State.current_scopes, ← State.indices_through]
      exact State.scope_eq (indexed_through hnames n).framed
    change (collect es).table.resolve? (ScopeStack.behind (program.take n)).current x = _ ↔ _
    rw [collect_table, hscope, hprogram]
    exact resolve?_iff_means hnames hx (List.suffix_refl _)
  refine ⟨hfound, ⟨fun h s hs q hd => ?_, fun h => ?_⟩, fun q s y hq hd => ?_⟩
  · obtain ⟨q', hq'⟩ := exists_means hs hd
    cases h.symm.trans ((hfound q').2 hq')
  · cases hf : found with
    | none => rfl
    | some q =>
      obtain ⟨s, hs, hd⟩ := ((hfound q).1 hf).declares
      exact (h s hs q hd).elim
  · obtain ⟨s', hs', hd'⟩ := ((hfound q).1 hq).declares
    rw [hprogram] at hd hd'
    obtain ⟨rfl, rfl⟩ := declares_unique hnames hd' hd
    exact ⟨hs', rfl⟩

/-- A block in a block that declares a name behind it, which is also a name outside of both. -/
def laterLabel : List Element :=
  [⟨{}, .label { name := "x" }⟩, ⟨{}, .block ""⟩, ⟨{}, .block ""⟩, ⟨{}, .endBlock ""⟩,
    ⟨{}, .label { name := "x" }⟩, ⟨{}, .endBlock ""⟩]

theorem resolve?_lexical_laterLabel :
    (∀ e ∈ outside laterLabel, e.PlainNames) ∧
      (collect laterLabel).table.resolve? "%1_%0_" "x" = some "%0_x" ∧
      Means (outside (collect laterLabel).program) "x" [some 2, some 1, none] "%0_x" := by
  have hnames : ∀ e ∈ outside laterLabel, e.PlainNames := by decide +kernel
  have hx : Scope.Unsegmented "x" := by decide +kernel
  have hscope : (ScopeStack.behind ((outside (collect laterLabel).program).take 3)).current =
      "%1_%0_" := by cbv
  have hfound : (collect laterLabel).table.resolve? "%1_%0_" "x" = some "%0_x" := by cbv
  refine ⟨hnames, hfound, ?_⟩
  have hmeans := ((resolve?_lexical hnames hx 3).1 "%0_x").1
  rw [hscope] at hmeans
  exact hmeans hfound

end Declarations
end Z80Asm
