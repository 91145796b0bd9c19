import Z80Asm.Proofs.CallDeclarations
import Z80Asm.Proofs.Lockstep

/-! Layout of a call and of the block that it stands for. What stands before the call cannot reach
its parameters, and behind it they have the same values in both cases. -/

namespace Z80Asm
set_option autoImplicit true

theorem SymbolTable.within_of_resolve? {t : SymbolTable} (hs : Scope.Below k scope)
    (hx : Scope.Unsegmented x) (h : t.resolve? scope x = some r) : Scope.Within k r := by
  obtain ⟨is, rfl, his⟩ := hs
  obtain ⟨js, hjs, rfl⟩ := path_of_resolve? h
  exact ⟨js, x, rfl, hx, fun j hj => his j (hjs.subset hj)⟩

theorem Value.leads_within {scope : String} (hs : Scope.Below k scope) (t : SymbolTable)
    (v : Value) : v.Leads (Scope.Within k) t scope :=
  fun _ hx _ _ hr => SymbolTable.within_of_resolve? hs (v.unsegmented_of_mentions hx) hr

theorem Value.isDeferred_of_mentions {v : Value} (h : x ∈ v.mentions) : v.isDeferred = true := by
  by_contra hd
  rw [v.mentions_of_not_deferred (Bool.eq_false_of_not_eq_true hd)] at h
  cases h

/-- The element is known by its symbol if it is a label, and this is declared. -/
def Declarations.Listed (t : SymbolTable) (e : Element) : Prop :=
  Named e ∧ ∀ l, e.stmt = .label l → l.symbol ∈ t.names

theorem Declarations.listed_thread (h : e ∈ (Program.thread State.step s es).1) :
    Listed (Program.thread State.step s es).2.table e :=
  ⟨named_thread h, fun _ hl => State.mem_names_of_label h hl⟩

namespace Layout

def ScopesBelow (k : Nat) (scopes : ScopeStack) : Prop := ∀ scope ∈ scopes, Scope.Below k scope

theorem ScopesBelow.current {scopes : ScopeStack} (h : ScopesBelow k scopes) :
    Scope.Below k scopes.current := by
  cases scopes with
  | nil => exact ⟨[], rfl, fun i hi => nomatch hi⟩
  | cons scope scopes => exact h scope List.mem_cons_self

theorem ScopesBelow.cons {scopes : ScopeStack} (h : ScopesBelow k scopes)
    (hs : Scope.Below k scope) : ScopesBelow k (scope :: scopes) := by
  intro a ha
  rcases List.mem_cons.1 ha with rfl | ha
  · exact hs
  · exact h a ha

theorem ScopesBelow.after {e : Element} {scopes : ScopeStack} (h : ScopesBelow k scopes)
    (he : e.Local k) : ScopesBelow k (scopes.after e.stmt) := by
  obtain ⟨loc, stmt⟩ := e
  cases stmt with
  | block => exact h.cons he
  | call c =>
    dsimp only [ScopeStack.after]
    split
    · rename_i hc
      exact h.cons (he hc)
    · exact h
  | endBlock => exact fun a ha => h a (List.mem_of_mem_tail ha)
  | endCall => exact fun a ha => h a (List.mem_of_mem_tail ha)
  | _ => exact h

section
variable {e : Element} {t : SymbolTable} {scopes : ScopeStack}

theorem confined_label {loc : Location} (h : Declarations.Listed t ⟨loc, .label l⟩)
    (hU : U l.symbol) : Confined U t scopes (.label l) := by
  rw [Confined, h.1 l rfl]
  exact ⟨hU, h.2 l rfl⟩

/-- An element before the index `k` is in use reaches no symbols of that index. -/
theorem confined_below (h : ScopesBelow k scopes) (he : e.Local k) (hu : e.Unscoped)
    (hl : Declarations.Listed t e) : Confined (Scope.Within k) t scopes e.stmt := by
  obtain ⟨loc, stmt⟩ := e
  have hvalue : ∀ v ∈ stmt.earlyValues, v.Leads (Scope.Within k) t (scopes.scopeOf v) := by
    intro v hv
    rw [ScopeStack.scopeOf, hu v hv]
    exact v.leads_within h.current t
  cases stmt with
  | label l => exact confined_label hl he
  | equ v => exact hvalue v (List.mem_singleton_self v)
  | org v => exact v.leads_within h.current t
  | phase v => exact v.leads_within h.current t
  | align v => exact v.leads_within h.current t
  | bytes tm => exact fun v hv => hvalue v (List.mem_filterMap.2 ⟨.expr v, hv, rfl⟩)
  | _ => trivial

theorem confined_everything (hl : Declarations.Listed t e) (scopes : ScopeStack) :
    Confined SymbolTable.Everything t scopes e.stmt := by
  obtain ⟨loc, stmt⟩ := e
  cases stmt with
  | label l => exact confined_label hl trivial
  | bytes tm => exact fun v _ x _ _ r _ => trivial
  | equ | org | phase | align => exact fun x _ _ r _ => trivial
  | _ => trivial

end

namespace State

theorem step_expandedCall {c : MacroCall} (s : State) (hc : c.expanded = true) (loc : Location) :
    s.step ⟨loc, .call c⟩ =
      (.call c, { s with scopes := c.scope :: s.scopes, pending := [] }) := by
  have hafter : s.scopes.after (.call c) = c.scope :: s.scopes := if_pos hc
  change (Statement.call c,
    ({ s with scopes := s.scopes.after (.call c), pending := [] } : State)) = _
  rw [hafter]

theorem placeLabel_named {s : State} {l : Label}
    (hl : (if l.symbol.isEmpty then l.name else l.symbol) = l.symbol)
    (hn : l.symbol ∈ s.table.names) :
    ∃ t, s.placeLabel l =
        (l, { s with table := t, pending := s.pending ++ [l.symbol] }) ∧
      t.outline = s.table.outline ∧ ∀ q, q ≠ l.symbol → t.get? q = s.table.get? q := by
  unfold placeLabel
  rw [hl]
  dsimp only
  split
  · exact ⟨_, rfl, SymbolTable.outline_set hn _, fun q hq => SymbolTable.get?_set_of_ne hn hq _⟩
  · exact ⟨_, rfl, SymbolTable.outline_set hn _, fun q hq => SymbolTable.get?_set_of_ne hn hq _⟩
  · exact ⟨_, rfl, rfl, fun q _ => rfl⟩

theorem thread_binding {s : State} {l : Label} (hp : s.pending = [])
    (hl : (if l.symbol.isEmpty then l.name else l.symbol) = l.symbol)
    (hn : l.symbol ∈ s.table.names) (v : Value) (loc : Location) :
    ∃ t, Program.thread State.step s [⟨loc, .label l⟩, ⟨loc, .equ v⟩] =
        ([⟨loc, .label l⟩, ⟨loc, .equ v⟩], s.withTable t) ∧
      t.outline = s.table.outline ∧
      ∀ q, t.get? q =
        if q = l.symbol then some (boundValue s.scopes s.address v) else s.table.get? q := by
  obtain ⟨t, hplace, houtline, hget⟩ := placeLabel_named hl hn
  have hn' : l.symbol ∈ t.names := SymbolTable.names_congr houtline ▸ hn
  refine ⟨t.set l.symbol (boundValue s.scopes s.address v), ?_, ?_, fun q => ?_⟩
  · have hstep : s.step ⟨loc, .label l⟩ =
        (.label l, { s with table := t, pending := [l.symbol] }) := by
      change (Statement.label (s.placeLabel l).1, (s.placeLabel l).2) = _
      rw [hplace, hp]
      rfl
    rw [Program.thread, hstep, Program.thread]
    obtain ⟨table, address, out, pending, scopes, overflowed, diagnostics⟩ := s
    cases hp
    rfl
  · rw [SymbolTable.outline_set hn', houtline]
  · rw [SymbolTable.get?_set]
    split
    · rfl
    · rename_i hq
      exact hget q hq

theorem thread_declaredBindings {s : State} (hp : s.pending = []) (hscope : scope ≠ "")
    (hn : ∀ p ∈ params, scope ++ p ∈ s.table.names) (hnodup : params.Nodup) (loc : Location)
    (args : List Value) :
    ∃ t, Program.thread State.step s (Macro.declaredBindings scope loc params args) =
        (Macro.declaredBindings scope loc params args, s.withTable t) ∧
      t.outline = s.table.outline ∧
      (∀ p a, (p, a) ∈ params.zip args →
        t.get? (scope ++ p) = some (boundValue s.scopes s.address a)) ∧
      ∀ q, q ∉ params.map (scope ++ ·) → t.get? q = s.table.get? q := by
  induction params generalizing s args with
  | nil => exact ⟨s.table, rfl, rfl, (fun p a h => by cases h), fun q _ => rfl⟩
  | cons p params ih =>
    cases args with
    | nil => exact ⟨s.table, rfl, rfl, (fun p a h => by cases h), fun q _ => rfl⟩
    | cons a args =>
      have hne : (scope ++ p).isEmpty = false := by
        rw [Bool.eq_false_iff]
        intro he
        exact hscope (String.append_eq_empty_iff.1 (String.isEmpty_iff.1 he)).1
      have hl : (if (scope ++ p).isEmpty then p else scope ++ p) = scope ++ p := by
        rw [hne]
        rfl
      obtain ⟨t, hfirst, houtline, hget⟩ :=
        thread_binding (l := { name := p, symbol := scope ++ p }) hp hl (hn p List.mem_cons_self) a
          loc
      obtain ⟨hp', hnodup'⟩ := List.nodup_cons.1 hnodup
      have hn' : ∀ p' ∈ params, scope ++ p' ∈ (s.withTable t).table.names := by
        intro p' hp'
        exact SymbolTable.names_congr houtline ▸ hn p' (List.mem_cons_of_mem p hp')
      obtain ⟨t', hrest, houtline', hbound, hother⟩ := ih (s := s.withTable t) hp hn' hnodup' args
      refine ⟨t', Program.thread_append_eq hfirst hrest, houtline'.trans houtline, ?_, ?_⟩
      · intro p' a' hmem
        rcases List.mem_cons.1 hmem with heq | hmem
        · cases heq
          rw [hother]
          · exact (hget _).trans (if_pos rfl)
          · intro hq
            obtain ⟨p'', hp'', heq⟩ := List.mem_map.1 hq
            rw [(String.append_right_inj scope).1 heq] at hp''
            exact hp' hp''
        · exact hbound p' a' hmem
      · intro q hq
        rw [List.map_cons, List.mem_cons, not_or] at hq
        rw [hother q hq.2]
        exact (hget q).trans (if_neg hq.1)

end State

section
variable {σ : Declarations.State} {k : Nat} {ks : List Nat} {body : List Element} {c : MacroCall}

abbrev parameterSymbols (k : Nat) (ks : List Nat) (c : MacroCall) : List String :=
  c.params.map (Scope.path (k :: ks) ++ ·)

theorem not_within_of_mem (hparams : ∀ p ∈ c.params, Scope.Unsegmented p)
    (hq : q ∈ parameterSymbols k ks c) : ¬ Scope.Within k q := by
  obtain ⟨p, hp, rfl⟩ := List.mem_map.1 hq
  exact Scope.not_within (hparams p hp) List.mem_cons_self (Nat.le_refl k)

theorem abreast_initial (h : σ.Indexed k) (hparams : ∀ p ∈ c.params, Scope.Unsegmented p) :
    State.Abreast (Scope.Within k) σ.table (σ.table.blank (parameterSymbols k ks c))
      { table := σ.table } (σ.table.blank (parameterSymbols k ks c)) := by
  refine ⟨⟨rfl, SymbolTable.outline_blank _ _, rfl, fun q hq v hv => ?_, fun q _ => ⟨rfl, rfl⟩⟩,
    fun q hq => (List.not_mem_nil hq).elim⟩
  have hmem : q ∉ parameterSymbols k ks c := fun hmem => not_within_of_mem hparams hmem hq
  have hv' : (σ.table.blank (parameterSymbols k ks c)).get? q = some v := by
    rw [SymbolTable.get?_blank, show σ.table.get? q = some v from hv, Option.map_some, if_neg hmem]
  refine ⟨v, hv', .refl fun x hx hne r hr => ?_⟩
  obtain ⟨scope, hscope, hbelow⟩ := h.values q v hv (v.isDeferred_of_mentions hx) hq
  rw [hscope] at hr
  exact v.leads_within hbelow σ.table x hx hne r hr

/-- An argument means the same within the call as around it, if none of its names is one of the
call's own. -/
theorem tied_argument {a : Value} {scopes : ScopeStack} {t : SymbolTable}
    (hscopes : scopes.current = Scope.path (k :: ks)) (ha : a.scope? = none)
    (hhere : "$" ∉ a.mentions) (hnames : ∀ x ∈ a.mentions, Scope.path (k :: ks) ++ x ∉ t.names)
    (address : Int64) (q : String) :
    Value.Tied SymbolTable.Everything t q (a.withScope (Scope.path ks))
      (State.boundValue scopes address a) := by
  have hcontent : (a.withScope (Scope.path ks)).content = a.content := by
    unfold Value.withScope
    split
    · rfl
    · rfl
  have hmentions : (a.withScope (Scope.path ks)).mentions = a.mentions := by
    unfold Value.mentions
    rw [hcontent]
  refine ⟨?_, fun hd => ?_, fun hx => ?_, fun x hx hne => ⟨?_, fun r _ => trivial⟩⟩
  · rw [State.content_boundValue, hcontent]
  · have hd' : a.isDeferred = false := by
      rw [← hd]
      exact congrArg Content.isDeferred hcontent.symm
    have hwith (scope : String) : a.withScope scope = a := by
      rw [Value.withScope, hd']
      rfl
    have huses : a.uses "$" = false := by
      unfold Value.uses
      split
      · rename_i names hc
        rw [Value.isDeferred, hc] at hd'
        cases hd'
      · rfl
    unfold State.boundValue
    dsimp only
    rw [hwith, hwith, huses]
    rfl
  · rw [hmentions] at hx
    exact (hhere hx).elim
  · rw [hmentions] at hx
    have hdeferred := a.isDeferred_of_mentions hx
    have hout : (a.withScope (Scope.path ks)).scope? = some (Scope.path ks) := by
      unfold Value.withScope
      rw [hdeferred, ha]
      rfl
    have hin : (State.boundValue scopes address a).scope? = some (Scope.path (k :: ks)) := by
      rw [State.scope?_boundValue scopes address hdeferred, ScopeStack.scopeOf, ha, hscopes]
      rfl
    have hcontains : t.contains (Scope.path (k :: ks) ++ x) = false := by
      rw [Bool.eq_false_iff]
      intro hmem
      exact hnames x hx (List.contains_iff_mem.1 hmem)
    rw [hin, hout, Option.getD_some, Option.getD_some, SymbolTable.resolve?_path, hcontains]
    rfl

theorem parallel_bound {t t' t₁ : SymbolTable} {scopes : ScopeStack} {address : Int64}
    (h : σ.Passed k ks body c) (hparams : ∀ p ∈ c.params, Scope.Unsegmented p)
    (hlen : c.args.length = c.params.length)
    (hargs : ∀ a ∈ c.args, a.scope? = none ∧ "$" ∉ a.mentions ∧
      ∀ x ∈ a.mentions, x ∉ c.params ∧ x ∉ Program.topLabels body)
    (hscopes : scopes.current = Scope.path (k :: ks))
    (htables : Memo.Parallel (Scope.Within k) σ.table
      (σ.table.blank (parameterSymbols k ks c)) ⟨t, []⟩ ⟨t', []⟩)
    (houtline : t₁.outline = t'.outline)
    (hbound : ∀ p a, (p, a) ∈ c.params.zip c.args →
      t₁.get? (Scope.path (k :: ks) ++ p) = some (State.boundValue scopes address a))
    (hother : ∀ q, q ∉ parameterSymbols k ks c → t₁.get? q = t'.get? q) :
    Memo.Parallel SymbolTable.Everything σ.table σ.table ⟨t, []⟩ ⟨t₁, []⟩ := by
  refine ⟨htables.outline, houtline.trans htables.outline', rfl, fun q _ v hv => ?_,
    fun q hq => (hq trivial).elim⟩
  dsimp only at hv ⊢
  by_cases hq : q ∈ parameterSymbols k ks c
  · -- The symbol is out of reach before the call, so it still holds the argument.
    have hold := (htables.rest q (not_within_of_mem hparams hq)).1
    obtain ⟨p, hp, rfl⟩ := List.mem_map.1 hq
    obtain ⟨a, ha⟩ : ∃ a, (p, a) ∈ c.params.zip c.args := by
      obtain ⟨i, hi, rfl⟩ := List.mem_iff_getElem.1 hp
      have hi' : i < c.args.length := hlen ▸ hi
      refine ⟨c.args[i], List.mem_iff_getElem.2 ⟨i, ?_, List.getElem_zip⟩⟩
      rw [List.length_zip, hlen, Nat.min_self]
      exact hi
    obtain ⟨hscope, hhere, hnames⟩ := hargs a (List.of_mem_zip ha).2
    rw [h.arguments p a ha] at hold
    cases hold.symm.trans hv
    refine ⟨_, hbound p a ha, tied_argument hscopes hscope hhere (fun x hx hmem => ?_) address _⟩
    obtain ⟨hparam, hlabel⟩ := hnames x hx
    exact (h.names x (a.unsegmented_of_mentions hx) hmem).elim hparam hlabel
  · rw [hother q hq]
    by_cases hw : Scope.Within k q
    · obtain ⟨v', hv', htied⟩ := htables.value q hw v hv
      exact ⟨v', hv', htied.weaken fun _ _ => trivial⟩
    · obtain ⟨hold, hnew⟩ := htables.rest q hw
      rw [SymbolTable.get?_blank] at hnew
      dsimp only at hold hnew
      rw [hnew, ← hold, hv, Option.map_some, if_neg hq]
      exact ⟨v, rfl, .refl fun x _ _ r _ => trivial⟩

theorem path_cons_ne_empty (k : Nat) (ks : List Nat) : Scope.path (k :: ks) ≠ "" := by
  intro he
  exact Scope.path_cons_ne_nil k ks (congrArg String.toList he)

theorem thread_everything {s : State} {t : SymbolTable} {es : List Element}
    (h : s.Abreast SymbolTable.Everything σ.table σ.table t)
    (hes : ∀ e ∈ es, Declarations.Listed σ.table e) :
    ∃ t₁, Program.thread State.step (s.withTable t) es =
        ((Program.thread State.step s es).1, (Program.thread State.step s es).2.withTable t₁) ∧
      (Program.thread State.step s es).2.Abreast SymbolTable.Everything σ.table σ.table t₁ :=
  h.thread (C := fun _ => True) trivial
    fun e he _ _ => ⟨trivial, confined_everything (hes e he) _⟩

theorem thread_before {front : List Element} (h : σ.Passed k ks body c)
    (hparams : ∀ p ∈ c.params, Scope.Unsegmented p) (hlocal : ∀ e ∈ front, e.Local k)
    (hunscoped : ∀ e ∈ front, e.Unscoped) (hfront : ∀ e ∈ front, Declarations.Listed σ.table e) :
    ∃ t, Program.thread State.step
          { table := σ.table.blank (parameterSymbols k ks c) } front =
        ((Program.thread State.step { table := σ.table } front).1,
          (Program.thread State.step { table := σ.table } front).2.withTable t) ∧
      (Program.thread State.step { table := σ.table } front).2.Abreast (Scope.Within k) σ.table
        (σ.table.blank (parameterSymbols k ks c)) t := by
  have hinitial : State.Abreast (Scope.Within k) σ.table
      (σ.table.blank (parameterSymbols k ks c)) { table := σ.table }
      (σ.table.blank (parameterSymbols k ks c)) := abreast_initial h.indexed hparams
  refine hinitial.thread (C := ScopesBelow k) (fun scope hs => (List.not_mem_nil hs).elim)
    fun e he scopes hs => ?_
  have hafter := hs.after (hlocal e he)
  exact ⟨hafter, confined_below hafter (hlocal e he) (hunscoped e he) (hfront e he)⟩

namespace State

def entered (s : State) (scope : String) : State :=
  { s with scopes := scope :: s.scopes, pending := [] }

def left (s : State) : State := { s with scopes := s.scopes.tail, pending := [] }

theorem thread_expandedCall (s : State) (hc : c.expanded = true) (loc : Location)
    (scope : String) :
    Program.thread step s [⟨loc, .call { c with scope }⟩] =
      ([⟨loc, .call { c with scope }⟩], s.entered scope) := by
  rw [Program.thread, s.step_expandedCall (c := { c with scope }) hc loc]
  rfl

theorem thread_block (s : State) (loc : Location) (scope : String) :
    Program.thread step s [⟨loc, .block scope⟩] = ([⟨loc, .block scope⟩], s.entered scope) := rfl

theorem thread_endCall (s : State) (loc : Location) (name scope : String) :
    Program.thread step s [⟨loc, .endCall name scope⟩] =
      ([⟨loc, .endCall name scope⟩], s.left) := rfl

theorem thread_endBlock (s : State) (loc : Location) (scope : String) :
    Program.thread step s [⟨loc, .endBlock scope⟩] = ([⟨loc, .endBlock scope⟩], s.left) := rfl

theorem Abreast.left {s : State} (h : s.Abreast U b b' t) : s.left.Abreast U b b' t :=
  ⟨h.tables, fun _ hq => (List.not_mem_nil hq).elim⟩

end State

theorem thread_bindings {s : State} {t : SymbolTable} (h : σ.Passed k ks body c)
    (hparams : ∀ p ∈ c.params, Scope.Unsegmented p) (hlen : c.args.length = c.params.length)
    (hnodup : c.params.Nodup)
    (hargs : ∀ a ∈ c.args, a.scope? = none ∧ "$" ∉ a.mentions ∧
      ∀ x ∈ a.mentions, x ∉ c.params ∧ x ∉ Program.topLabels body)
    (hs : s.Abreast (Scope.Within k) σ.table (σ.table.blank (parameterSymbols k ks c)) t)
    (loc : Location) :
    let inner := Scope.path (k :: ks)
    ∃ t₁, Program.thread State.step ((s.entered inner).withTable t)
          (Macro.declaredBindings inner loc c.params c.args) =
        (Macro.declaredBindings inner loc c.params c.args, (s.entered inner).withTable t₁) ∧
      (s.entered inner).Abreast SymbolTable.Everything σ.table σ.table t₁ := by
  intro inner
  have hnames : ∀ p ∈ c.params, inner ++ p ∈ ((s.entered inner).withTable t).table.names :=
    fun p hp => hs.tables.names' ▸ h.declared p hp
  obtain ⟨t₁, hbindings, houtline, hbound, hother⟩ := State.thread_declaredBindings
    (s := (s.entered inner).withTable t) rfl (path_cons_ne_empty k ks) hnames hnodup loc c.args
  refine ⟨t₁, hbindings, ?_, fun q hq => (List.not_mem_nil hq).elim⟩
  exact parallel_bound h hparams hlen hargs rfl hs.tables houtline hbound hother

/-- A program with a call and one with the block instead are laid out alike, and in the end their
tables hold tied values. -/
theorem thread_asBlock {front body' back : List Element} (h : σ.Passed k ks body c)
    (hc : c.expanded = true) (hparams : ∀ p ∈ c.params, Scope.Unsegmented p)
    (hlen : c.args.length = c.params.length) (hnodup : c.params.Nodup)
    (hargs : ∀ a ∈ c.args, a.scope? = none ∧ "$" ∉ a.mentions ∧
      ∀ x ∈ a.mentions, x ∉ c.params ∧ x ∉ Program.topLabels body)
    (hlocal : ∀ e ∈ front, e.Local k) (hunscoped : ∀ e ∈ front, e.Unscoped)
    (hfront : ∀ e ∈ front, Declarations.Listed σ.table e)
    (hbody : ∀ e ∈ body', Declarations.Listed σ.table e)
    (hback : ∀ e ∈ back, Declarations.Listed σ.table e) (loc : Location) (name : String) :
    let inner := Scope.path (k :: ks)
    ∃ front' body'' back' s t,
      Program.thread State.step { table := σ.table }
          (front ++ ([⟨loc, .call { c with scope := inner }⟩] ++
            (body' ++ ([⟨loc, .endCall name inner⟩] ++ back)))) =
        (front' ++ ([⟨loc, .call { c with scope := inner }⟩] ++
          (body'' ++ ([⟨loc, .endCall name inner⟩] ++ back'))), s) ∧
      Program.thread State.step { table := σ.table.blank (parameterSymbols k ks c) }
          (front ++ ([⟨loc, .block inner⟩] ++
            (Macro.declaredBindings inner loc c.params c.args ++
              (body' ++ ([⟨loc, .endBlock inner⟩] ++ back))))) =
        (front' ++ ([⟨loc, .block inner⟩] ++
          (Macro.declaredBindings inner loc c.params c.args ++
            (body'' ++ ([⟨loc, .endBlock inner⟩] ++ back')))), s.withTable t) ∧
      Memo.Parallel SymbolTable.Everything σ.table σ.table ⟨s.table, []⟩ ⟨t, []⟩ := by
  intro inner
  obtain ⟨t₀, hfrontNew, h₀⟩ := thread_before h hparams hlocal hunscoped hfront
  generalize hfrontOld : Program.thread State.step { table := σ.table } front = r₀
    at hfrontNew h₀
  obtain ⟨front', s₀⟩ := r₀
  obtain ⟨t₁, hbindings, h₁⟩ := thread_bindings h hparams hlen hnodup hargs h₀ loc
  obtain ⟨t₂, hbodyNew, h₂⟩ := thread_everything h₁ hbody
  generalize hbodyOld : Program.thread State.step (s₀.entered inner) body' = r₂ at hbodyNew h₂
  obtain ⟨body'', s₂⟩ := r₂
  obtain ⟨t₃, hbackNew, h₃⟩ := thread_everything h₂.left hback
  refine ⟨front', body'', (Program.thread State.step s₂.left back).1,
    (Program.thread State.step s₂.left back).2, t₃, ?_, ?_, h₃.tables⟩
  · exact Program.thread_append_eq hfrontOld (Program.thread_append_eq
      (s₀.thread_expandedCall hc loc inner) (Program.thread_append_eq hbodyOld
        (Program.thread_append_eq (s₂.thread_endCall loc name inner) rfl)))
  · exact Program.thread_append_eq hfrontNew (Program.thread_append_eq
      ((s₀.withTable t₀).thread_block loc inner) (Program.thread_append_eq hbindings
        (Program.thread_append_eq hbodyNew (Program.thread_append_eq
          ((s₂.withTable t₂).thread_endBlock loc inner) hbackNew))))

end
end Layout
end Z80Asm
