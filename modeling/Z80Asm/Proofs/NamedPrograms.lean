import Z80Asm.Proofs.Hoisting
import Z80Asm.Proofs.Naming

/-! Programs with a name for a constant. They go through every pass as they do with the constant
itself, and come out as the same image. -/

namespace Z80Asm
set_option autoImplicit true

def Element.Renders (x : String) (d : Datum) (e e' : Element) : Prop :=
  e.stmt.Named x d true e'.stmt

theorem Statement.Named.isMark_eq (h : Statement.Named x d reserves stmt stmt') :
    Program.isMark stmt' = Program.isMark stmt ∧
      ∀ depth, Program.depthAfter depth stmt' = Program.depthAfter depth stmt := by
  cases h with
  | bytes => exact ⟨rfl, fun _ => rfl⟩
  | same => exact ⟨rfl, fun _ => rfl⟩

namespace Element.Renders

theorem of_call {loc : Location} (h : Renders x d ⟨loc, .call c⟩ e') :
    (∃ loc', e' = ⟨loc', .call c⟩) ∧ (Statement.call c).Avoids x := by
  obtain ⟨loc', stmt'⟩ := e'
  cases h with
  | same _ havoids => exact ⟨⟨loc', rfl⟩, havoids⟩

theorem call (d : Datum) (c c' : MacroCall) (hargs : c'.args = c.args)
    (h : (Statement.call c).Avoids x)
    (hparams : ∀ n ∈ c'.params, Scope.Unsegmented n ∧ n ≠ x) (loc loc' : Location) :
    Renders x d ⟨loc, .call c'⟩ ⟨loc', .call c'⟩ := by
  refine .same (fun t ht => ?_) ⟨hparams, fun v hv => h.values v ?_⟩
  · cases ht
  · change v ∈ c'.args at hv
    rwa [hargs] at hv

theorem not_call (h : Renders x d e e') (hn : ∀ c, e.stmt = .call c → c.isPending = false) :
    ∀ c, e'.stmt = .call c → c.isPending = false := by
  obtain ⟨loc, stmt⟩ := e
  obtain ⟨loc', stmt'⟩ := e'
  intro c hc
  cases h with
  | bytes => cases hc
  | same => exact hn c hc

end Element.Renders

theorem Program.outsideFrom_renders (h : List.Forall₂ (Element.Renders x d) es es')
    (depth : Nat) :
    List.Forall₂ (Element.Renders x d) (outsideFrom depth es) (outsideFrom depth es') := by
  induction h generalizing depth with
  | nil => exact .nil
  | cons he _ ih =>
    obtain ⟨hmark, hdepth⟩ := Statement.Named.isMark_eq he
    rw [outsideFrom, outsideFrom, inDefinition_eq, inDefinition_eq, hmark, hdepth]
    split
    · exact ih _
    · exact .cons he (ih depth)

namespace Macro

/-- The bodies of the macros differ in a name for a constant, which is none of their parameters. -/
structure Renders (x : String) (d : Datum) (m m' : Macro) : Prop where
  name : m'.name = m.name
  params : m'.params = m.params
  fresh : ∀ n ∈ m.params, Scope.Unsegmented n ∧ n ≠ x
  body : List.Forall₂ (Element.Renders x d) m.body m'.body

structure Opened.Renders (x : String) (d : Datum) (o o' : Opened) : Prop where
  name : o'.name = o.name
  params : o'.params = o.params
  inner : o'.inner = o.inner
  nests : o'.nests = o.nests
  fresh : ∀ n ∈ o.params, Scope.Unsegmented n ∧ n ≠ x
  body : List.Forall₂ (Element.Renders x d) o.body.toList o'.body.toList

structure Extraction.Renders (x : String) (d : Datum) (s s' : Extraction) : Prop where
  table : List.Forall₂ (Macro.Renders x d) s.table s'.table
  quiet : s'.diagnostics = [] ↔ s.diagnostics = []
  opened : Option.Rel (Opened.Renders x d) s.opened? s'.opened?

theorem find?_renders (h : List.Forall₂ (Macro.Renders x d) t t') (q : String) :
    Option.Rel (Macro.Renders x d) (MacroTable.find? t q) (MacroTable.find? t' q) := by
  unfold MacroTable.find?
  induction h with
  | nil => exact .none
  | @cons m m' _ _ hm _ ih =>
    rw [List.find?_cons, List.find?_cons, hm.name]
    cases decide (m.name = q) with
    | true => exact .some hm
    | false => exact ih

section
variable {x : String} {d : Datum} {s s' : Extraction}

theorem Extraction.Renders.report (h : s.Renders x d s') (p p' : Problem) (loc loc' : Location) :
    (s.report p loc).Renders x d (s'.report p' loc') := by
  refine ⟨h.table, ?_, h.opened⟩
  change s'.diagnostics ++ [⟨p', loc'⟩] = [] ↔ s.diagnostics ++ [⟨p, loc⟩] = []
  simp only [List.append_eq_nil_iff, List.cons_ne_nil, and_false]

theorem Extraction.Renders.finish (h : s.Renders x d s') (ho : o.Renders x d o') :
    (s.finish o).Renders x d (s'.finish o') := by
  have hclosed : Extraction.Renders x d { s with opened? := none } { s' with opened? := none } :=
    ⟨h.table, h.quiet, .none⟩
  unfold Extraction.finish
  dsimp only
  rw [ho.nests, ho.name]
  split
  · exact hclosed
  · have hfind := find?_renders h.table o.name
    generalize MacroTable.find? s.table o.name = r at hfind ⊢
    generalize MacroTable.find? s'.table o.name = r' at hfind ⊢
    cases hfind with
    | some _ => exact hclosed.report _ _ _ _
    | none =>
      have hmacro : Macro.Renders x d o.close o'.close := ⟨ho.name, ho.params, ho.fresh, ho.body⟩
      exact ⟨List.rel_append h.table (.cons hmacro .nil), h.quiet, .none⟩

theorem Opened.Renders.push (h : Opened.Renders x d o o') (he : Element.Renders x d e e') :
    Opened.Renders x d { o with body := o.body.push e } { o' with body := o'.body.push e' } := by
  refine ⟨h.name, h.params, h.inner, h.nests, h.fresh, ?_⟩
  rw [Array.toList_push, Array.toList_push]
  exact List.rel_append h.body (.cons he .nil)

theorem Extraction.Renders.step (h : s.Renders x d s') (he : e.Renders x d e') :
    (s.step e).Renders x d (s'.step e') := by
  obtain ⟨loc, stmt⟩ := e
  obtain ⟨loc', stmt'⟩ := e'
  obtain ⟨table, ds, opened?⟩ := s
  obtain ⟨table', ds', opened?'⟩ := s'
  have hopened : Option.Rel (Opened.Renders x d) opened? opened?' := h.opened
  cases hopened with
  | none =>
    cases he with
    | bytes => exact h
    | same hbytes havoids =>
      cases stmt with
      | macroDef name params =>
        have hopen : Opened.Renders x d { name, params, loc } { name, params, loc := loc' } :=
          ⟨rfl, rfl, rfl, rfl, havoids.binders, .nil⟩
        exact ⟨h.table, h.quiet, .some hopen⟩
      | endMacro => exact h.report _ _ loc loc'
      | _ => exact h
  | @some o o' ho =>
    have hinside : Extraction.Renders x d
        ⟨table, ds, some { o with body := o.body.push ⟨loc, stmt⟩ }⟩
        ⟨table', ds', some { o' with body := o'.body.push ⟨loc', stmt'⟩ }⟩ :=
      ⟨h.table, h.quiet, .some (ho.push he)⟩
    cases he with
    | bytes => exact hinside
    | same hbytes havoids =>
      cases stmt with
      | macroDef name params =>
        have hnested : Opened.Renders x d { o with inner := o.inner + 1, nests := true }
            { o' with inner := o'.inner + 1, nests := true } :=
          ⟨ho.name, ho.params, congrArg (· + 1) ho.inner, rfl, ho.fresh, ho.body⟩
        have hreport := h.report (.nestedMacro name o.name o.loc) (.nestedMacro name o'.name o'.loc)
          loc loc'
        exact ⟨hreport.table, hreport.quiet, .some hnested⟩
      | endMacro =>
        unfold Extraction.step
        dsimp only
        rw [ho.inner]
        cases hinner : o.inner with
        | zero => exact h.finish ho
        | succ inner =>
          have hless : Opened.Renders x d { o with inner } { o' with inner } :=
            ⟨ho.name, ho.params, rfl, ho.nests, ho.fresh, ho.body⟩
          exact ⟨h.table, h.quiet, .some hless⟩
      | _ => exact hinside

theorem Extraction.Renders.foldl (h : s.Renders x d s')
    (hes : List.Forall₂ (Element.Renders x d) es es') :
    (es.foldl Extraction.step s).Renders x d (es'.foldl Extraction.step s') := by
  induction hes generalizing s s' with
  | nil => exact h
  | cons he _ ih => exact ih (h.step he)

theorem extract_renders (h : List.Forall₂ (Element.Renders x d) es es') :
    List.Forall₂ (Macro.Renders x d) (extract es).1 (extract es').1 ∧
      ((extract es').2 = [] ↔ (extract es).2 = []) := by
  have hstart : Extraction.Renders x d {} {} := ⟨.nil, Iff.rfl, .none⟩
  have hend := hstart.foldl h
  unfold extract
  dsimp only
  generalize es.foldl Extraction.step {} = s at hend ⊢
  generalize es'.foldl Extraction.step {} = s' at hend ⊢
  have hopened := hend.opened
  generalize s.opened? = o at hopened ⊢
  generalize s'.opened? = o' at hopened ⊢
  cases hopened with
  | none => exact ⟨hend.table, hend.quiet⟩
  | @some o o' _ =>
    have hreport := hend.report (.unclosedMacro o.name) (.unclosedMacro o'.name) o.loc o'.loc
    exact ⟨hreport.table, hreport.quiet⟩

end

section
variable {x : String} {d : Datum} {t t' : MacroTable}

theorem copies_renders (ht : List.Forall₂ (Macro.Renders x d) t t') (h : e.Renders x d e') :
    List.Forall₂ (Element.Renders x d) (copies t e) (copies t' e') ∧
      (undefinedAt t' e' = [] ↔ undefinedAt t e = []) := by
  unfold copies undefinedAt
  rcases not_pending_cases e with ⟨c, hcall, hpending⟩ | hn
  · obtain ⟨loc, stmt⟩ := e
    cases hcall
    obtain ⟨⟨loc', rfl⟩, havoids⟩ := h.of_call
    have hfind := find?_renders ht c.name
    generalize hr : MacroTable.find? t c.name = r at hfind
    generalize hr' : MacroTable.find? t' c.name = r' at hfind
    cases hfind with
    | none =>
      rw [expandElement_undefined ⟨rfl, hpending⟩ hr, expandElement_undefined ⟨rfl, hpending⟩ hr']
      have hreported := Element.Renders.call d c { c with reported := true } rfl havoids
        havoids.binders loc loc'
      refine ⟨.cons hreported .nil, ?_⟩
      simp only [List.cons_ne_nil]
    | @some m m' hm =>
      rw [expandElement_known ⟨rfl, hpending⟩ hr, expandElement_known ⟨rfl, hpending⟩ hr',
        hm.params]
      have hend : Element.Renders x d ⟨loc, .endCall c.name ""⟩ ⟨loc', .endCall c.name ""⟩ := by
        refine .same (fun t ht => ?_) ⟨fun n hn => ?_, fun v hv => ?_⟩
        · cases ht
        · cases hn
        · cases hv
      have hexpanded := Element.Renders.call d c { c with expanded := true, params := m.params } rfl
        havoids hm.fresh loc loc'
      exact ⟨.cons hexpanded (List.rel_append hm.body (.cons hend .nil)), Iff.rfl⟩
  · rw [expandElement_still t hn, expandElement_still t' (h.not_call hn)]
    exact ⟨.cons h .nil, Iff.rfl⟩

theorem deepMarked_renders (ht : List.Forall₂ (Macro.Renders x d) t t') (limit : Nat)
    (h : e.Renders x d e') :
    Element.Renders x d (deepMarked t limit e) (deepMarked t' limit e') ∧
      (tooDeepAt t' limit e' = [] ↔ tooDeepAt t limit e = []) := by
  unfold deepMarked tooDeepAt
  rcases not_pending_cases e with ⟨c, hcall, hpending⟩ | hn
  · obtain ⟨loc, stmt⟩ := e
    cases hcall
    obtain ⟨⟨loc', rfl⟩, havoids⟩ := h.of_call
    have hfind := find?_renders ht c.name
    unfold reportDeep
    dsimp only
    rw [hpending, Bool.true_and, Bool.true_and]
    generalize MacroTable.find? t c.name = r at hfind
    generalize MacroTable.find? t' c.name = r' at hfind
    cases hfind with
    | none => exact ⟨h, Iff.rfl⟩
    | some hm =>
      have hreported := Element.Renders.call d c { c with reported := true } rfl havoids
        havoids.binders loc loc'
      exact ⟨hreported, iff_of_false (List.cons_ne_nil _ _) (List.cons_ne_nil _ _)⟩
  · rw [reportDeep_still t limit hn, reportDeep_still t' limit (h.not_call hn)]
    exact ⟨h, Iff.rfl⟩

/-- Lists that are related element by element are so after a replacement of each element by a
list, and what is reported at each. -/
theorem flatMap_renders {f f' : Element → List Element} {g g' : Element → List Diagnostic}
    (hf : ∀ e e', Element.Renders x d e e' →
      List.Forall₂ (Element.Renders x d) (f e) (f' e') ∧ (g' e' = [] ↔ g e = []))
    (h : List.Forall₂ (Element.Renders x d) es es') :
    List.Forall₂ (Element.Renders x d) (es.flatMap f) (es'.flatMap f') ∧
      (es'.flatMap g' = [] ↔ es.flatMap g = []) := by
  induction h with
  | nil => exact ⟨.nil, Iff.rfl⟩
  | cons he _ ih =>
    obtain ⟨hrest, hquiet⟩ := ih
    obtain ⟨hhere, hquiet'⟩ := hf _ _ he
    refine ⟨List.rel_append hhere hrest, ?_⟩
    rw [List.flatMap_cons, List.flatMap_cons, List.append_eq_nil_iff, List.append_eq_nil_iff,
      hquiet, hquiet']

theorem inlined_renders (ht : List.Forall₂ (Macro.Renders x d) t t') (n : Nat)
    (h : List.Forall₂ (Element.Renders x d) es es') :
    List.Forall₂ (Element.Renders x d) (inlined t n es) (inlined t' n es') ∧
      (undefinedWithin t' n es' = [] ↔ undefinedWithin t n es = []) := by
  induction n generalizing es es' with
  | zero => exact ⟨h, Iff.rfl⟩
  | succ n ih =>
    obtain ⟨hcopies, hquiet⟩ := flatMap_renders (fun e e' => copies_renders ht) h
    obtain ⟨hrest, hquiet'⟩ := ih hcopies
    refine ⟨hrest, ?_⟩
    rw [undefinedWithin, undefinedWithin, List.append_eq_nil_iff, List.append_eq_nil_iff, hquiet,
      hquiet']

theorem expansion_renders (ht : List.Forall₂ (Macro.Renders x d) t t') (hplain : Plain t)
    (hplain' : Plain t') (limit : Nat) (h : List.Forall₂ (Element.Renders x d) es es') :
    List.Forall₂ (Element.Renders x d) (expansion t limit es) (expansion t' limit es') ∧
      ((expandAll t' limit es').2 = [] ↔ (expandAll t limit es).2 = []) := by
  obtain ⟨hout, hds⟩ := expansion_eq hplain limit es
  obtain ⟨hout', hds'⟩ := expansion_eq hplain' limit es'
  obtain ⟨hinlined, hquiet⟩ := inlined_renders ht limit (Program.outsideFrom_renders h 0)
  rw [hout, hout', hds, hds', List.append_eq_nil_iff, List.append_eq_nil_iff]
  have hdeep (e e' : Element) (he : e.Renders x d e') :
      List.Forall₂ (Element.Renders x d) [deepMarked t limit e] [deepMarked t' limit e'] ∧
        (tooDeepAt t' limit e' = [] ↔ tooDeepAt t limit e = []) :=
    ⟨.cons (deepMarked_renders ht limit he).1 .nil, (deepMarked_renders ht limit he).2⟩
  obtain ⟨hmarked, hquiet'⟩ := flatMap_renders hdeep hinlined
  rw [← List.map_eq_flatMap, ← List.map_eq_flatMap] at hmarked
  exact ⟨hmarked, and_congr hquiet hquiet'⟩

end
end Macro

theorem SymbolTable.Beside.congr {t t' u u' : SymbolTable} (h : Beside x w t t')
    (hn : u.names = t.names) (hn' : u'.names = t'.names) (hg : ∀ q, u.get? q = t.get? q)
    (hg' : ∀ q, u'.get? q = t'.get? q) : Beside x w u u' := by
  refine ⟨?_, ?_, fun q hq => ?_, fun q hq => ?_, fun q v hv => ?_⟩
  · rw [hn, hn', h.names]
  · rw [hg', h.self]
  · rw [hg, hg', h.get q hq]
  · rw [hn] at hq
    exact h.clear q hq
  · rw [hg] at hv
    exact h.values q v hv

namespace Declarations

structure Frame.Same (f f' : Frame) : Prop where
  index : f'.index = f.index
  scope : f'.scope = f.scope
  isCall : f'.isCall = f.isCall

namespace State

/-- The second state has declared the symbol `x` before all others. -/
structure Beside (x : String) (s s' : State) : Prop where
  table : s.table.Beside x .unresolved s'.table
  next : s'.next = s.next
  stack : List.Forall₂ Frame.Same s.stack s'.stack
  framed : Framed s.stack
  quiet : s'.diagnostics = [] ↔ s.diagnostics = []

namespace Beside

variable {x : String} {s s' : State}

theorem report (h : s.Beside x s') (p p' : Problem) (loc loc' : Location) :
    (s.report p loc).Beside x (s'.report p' loc') := by
  refine ⟨h.table, h.next, h.stack, h.framed, ?_⟩
  change s'.diagnostics ++ [⟨p', loc'⟩] = [] ↔ s.diagnostics ++ [⟨p, loc⟩] = []
  simp only [List.append_eq_nil_iff, List.cons_ne_nil, and_false]

theorem indices_eq (h : s.Beside x s') : s'.indices = s.indices := by
  unfold indices
  have hstack := h.stack
  generalize s.stack = fs at hstack
  generalize s'.stack = fs' at hstack
  induction hstack with
  | nil => rfl
  | cons hf _ ih => rw [List.map_cons, List.map_cons, hf.index, ih]

theorem scope_eq (h : s.Beside x s') : s'.scope = s.scope := by
  unfold State.scope
  have hstack := h.stack
  generalize s.stack = fs at hstack
  generalize s'.stack = fs' at hstack
  cases hstack with
  | nil => rfl
  | cons hf _ => exact hf.scope

theorem isPath (h : s.Beside x s') : Scope.IsPath s.scope :=
  ⟨s.indices, State.scope_eq h.framed⟩

theorem enter (h : s.Beside x s') (isCall : Bool) (loc loc' : Location) :
    (s'.enter isCall loc').1 = (s.enter isCall loc).1 ∧
      Scope.IsPath (s.enter isCall loc).1 ∧
      (s.enter isCall loc).2.Beside x (s'.enter isCall loc').2 := by
  have hscope : (s'.enter isCall loc').1 = (s.enter isCall loc).1 := by
    rw [enter_fst, enter_fst, h.next, h.indices_eq]
  refine ⟨hscope, ⟨_, s.enter_fst isCall loc⟩, h.table, congrArg (· + 1) h.next, ?_, ?_, h.quiet⟩
  · exact .cons ⟨h.next, hscope, rfl⟩ h.stack
  · exact ⟨s.enter_fst isCall loc, h.framed⟩

theorem leave (h : s.Beside x s') (isCall : Bool) (loc loc' : Location) :
    (s'.leave isCall loc').1 = (s.leave isCall loc).1 ∧
      (s.leave isCall loc).2.Beside x (s'.leave isCall loc').2 := by
  obtain ⟨t, next, fs, ds⟩ := s
  obtain ⟨t', next', fs', ds'⟩ := s'
  have hstack : List.Forall₂ Frame.Same fs fs' := h.stack
  cases hstack with
  | nil => exact ⟨rfl, h.report _ _ loc loc'⟩
  | @cons f f' fs fs' hf hfs =>
    have houter : Beside x ⟨t, next, fs, ds⟩ ⟨t', next', fs', ds'⟩ :=
      ⟨h.table, h.next, hfs, h.framed.2, h.quiet⟩
    unfold State.leave
    dsimp only
    rw [hf.isCall]
    refine ⟨hf.scope, ?_⟩
    split
    · exact houter
    · exact houter.report _ _ loc loc'

theorem declare (h : s.Beside x s') (hx : Scope.Unsegmented x) (hq : Scope.Clear x q)
    (hv : v.AvoidsWithin x) (loc loc' : Location) (taken taken' : Problem) :
    (s.declare q v loc taken).Beside x (s'.declare q v loc' taken') := by
  have hmem := h.table.mem_iff (hq.ne hx)
  by_cases hn : q ∈ s.table.names
  · rw [declare_of_mem hn, declare_of_mem (hmem.2 hn)]
    exact h.report _ _ loc loc'
  · have hn' := mt hmem.1 hn
    obtain ⟨t, hd, ho, hget⟩ := declare_of_not_mem hn v loc taken
    obtain ⟨t', hd', ho', hget'⟩ := declare_of_not_mem hn' v loc' taken'
    have htable : t.Beside x .unresolved t' := by
      apply (h.table.set hx hq hv).congr
      · rw [names_of_outline ho, SymbolTable.names_set, if_neg hn]
      · rw [names_of_outline ho', SymbolTable.names_set, if_neg hn']
      · exact fun p => (hget p).trans (SymbolTable.get?_set _ _ _ _).symm
      · exact fun p => (hget' p).trans (SymbolTable.get?_set _ _ _ _).symm
    rw [hd, hd']
    exact ⟨htable, h.next, h.stack, h.framed, h.quiet⟩

theorem bind (h : s.Beside x s') (hx : Scope.Unsegmented x) (c : MacroCall) {caller scope : String}
    (hcaller : Scope.IsPath caller) (hscope : Scope.IsPath scope) {params : List String}
    (hparams : ∀ n ∈ params, Scope.Unsegmented n ∧ n ≠ x) {args : List Value}
    (hargs : ∀ v ∈ args, v.Avoids x) (loc loc' : Location) :
    (s.bind c caller scope loc params args).Beside x
      (s'.bind c caller scope loc' params args) := by
  induction params generalizing s s' args with
  | nil => exact h
  | cons p params ih =>
    obtain ⟨⟨hp, hne⟩, hparams⟩ := List.forall_mem_cons.1 hparams
    unfold State.bind
    apply ih _ hparams fun v hv => hargs v (List.mem_of_mem_tail hv)
    apply h.declare hx (hscope.clear hp hne)
    cases args with
    | nil => exact Value.avoidsWithin_of_not_deferred rfl
    | cons a args =>
      have ha := hargs a List.mem_cons_self
      intro hd
      refine ⟨?_, caller, scope?_withScope ha.scope hd, hcaller⟩
      have hcontent : (a.withScope caller).content = a.content := by
        unfold Value.withScope
        split
        · rfl
        · rfl
      unfold Value.mentions
      dsimp only
      rw [hcontent]
      exact ha.mentions

theorem enterCall (h : s.Beside x s') (hx : Scope.Unsegmented x) {c : MacroCall}
    (hc : (Statement.call c).Avoids x) (loc loc' : Location) :
    (s'.enterCall c loc').1 = (s.enterCall c loc).1 ∧ Scope.IsPath (s.enterCall c loc).1.scope ∧
      (s.enterCall c loc).2.Beside x (s'.enterCall c loc').2 := by
  obtain ⟨hscope, hpath, henter⟩ := h.enter true loc loc'
  have hbind := henter.bind hx c h.isPath hpath hc.binders hc.values loc loc'
  refine ⟨?_, hpath, ?_⟩
  · change { c with scope := (s'.enter true loc').1 } = { c with scope := (s.enter true loc).1 }
    rw [hscope]
  · rw [enterCall_snd, enterCall_snd, hscope, h.scope_eq]
    dsimp only
    split
    · exact hbind.report _ _ loc loc'
    · exact hbind

theorem step_call (h : s.Beside x s') (hx : Scope.Unsegmented x) {c : MacroCall}
    (hc : (Statement.call c).Avoids x) (loc loc' : Location) :
    Element.Named x d true ⟨loc, (s.step ⟨loc, .call c⟩).1⟩ ⟨loc', (s'.step ⟨loc', .call c⟩).1⟩ ∧
      (s.step ⟨loc, .call c⟩).2.Beside x (s'.step ⟨loc', .call c⟩).2 := by
  unfold State.step
  dsimp only
  split
  · obtain ⟨hcall, hpath, hnext⟩ := h.enterCall hx hc loc loc'
    refine ⟨⟨?_, fun _ => hpath⟩, hnext⟩
    dsimp only
    rw [hcall]
    exact .same (fun t ht => by cases ht) ⟨hc.binders, hc.values⟩
  · rename_i hplain
    exact ⟨⟨.same (fun t ht => by cases ht) hc, fun he => (hplain he).elim⟩, h⟩

theorem step_label (h : s.Beside x s') (hx : Scope.Unsegmented x) {l : Label}
    (hl : (Statement.label l).Avoids x) (loc loc' : Location) :
    Element.Named x d true ⟨loc, (s.step ⟨loc, .label l⟩).1⟩
        ⟨loc', (s'.step ⟨loc', .label l⟩).1⟩ ∧
      (s.step ⟨loc, .label l⟩).2.Beside x (s'.step ⟨loc', .label l⟩).2 := by
  obtain ⟨hname, hne⟩ := hl.binders l.name (List.mem_singleton_self _)
  have hclear : Scope.Clear x (if l.isPublic then l.name else s.scope ++ l.name) := by
    split
    · exact Scope.clear_of_ne hname hne
    · exact h.isPath.clear hname hne
  have hv : Value.unresolved.AvoidsWithin x := Value.avoidsWithin_of_not_deferred rfl
  unfold State.step declareLabel
  dsimp only
  rw [h.scope_eq]
  refine ⟨⟨.same (fun t ht => by cases ht) ⟨hl.binders, hl.values⟩, ?_⟩,
    h.declare hx hclear hv loc loc' _ _⟩
  change Scope.Clear x (if _ then _ else _)
  dsimp only
  generalize (if l.isPublic = true then l.name else s.scope ++ l.name) = symbol at hclear ⊢
  split
  · exact Scope.clear_of_ne hname hne
  · exact hclear

theorem step (h : s.Beside x s') (hx : Scope.Unsegmented x) (he : e.Renders x d e') :
    Element.Named x d true { e with stmt := (s.step e).1 } { e' with stmt := (s'.step e').1 } ∧
      (s.step e).2.Beside x (s'.step e').2 := by
  have hnone {stmt : Statement} (hb : ∀ t, stmt ≠ .bytes t) (hbinders : stmt.binders = [])
      (hvalues : stmt.values = []) : Statement.Named x d true stmt stmt :=
    .same hb ⟨hbinders ▸ List.forall_mem_nil _, hvalues ▸ List.forall_mem_nil _⟩
  obtain ⟨loc, stmt⟩ := e
  obtain ⟨loc', stmt'⟩ := e'
  cases he with
  | bytes hslots => exact ⟨⟨.bytes hslots, trivial⟩, h⟩
  | same hbytes havoids =>
    cases stmt with
    | block scope =>
      obtain ⟨hscope, hpath, henter⟩ := h.enter false loc loc'
      refine ⟨⟨?_, hpath⟩, henter⟩
      change Statement.Named x d true (.block (s.enter false loc).1)
        (.block (s'.enter false loc').1)
      rw [hscope]
      exact hnone (fun t ht => by cases ht) rfl rfl
    | endBlock scope =>
      obtain ⟨hscope, hleave⟩ := h.leave false loc loc'
      refine ⟨⟨?_, trivial⟩, hleave⟩
      change Statement.Named x d true (.endBlock (s.leave false loc).1)
        (.endBlock (s'.leave false loc').1)
      rw [hscope]
      exact hnone (fun t ht => by cases ht) rfl rfl
    | endCall name scope =>
      obtain ⟨hscope, hleave⟩ := h.leave true loc loc'
      refine ⟨⟨?_, trivial⟩, hleave⟩
      change Statement.Named x d true (.endCall name (s.leave true loc).1)
        (.endCall name (s'.leave true loc').1)
      rw [hscope]
      exact hnone (fun t ht => by cases ht) rfl rfl
    | call c => exact h.step_call hx havoids loc loc'
    | label l => exact h.step_label hx havoids loc loc'
    | bytes t => exact (hbytes t rfl).elim
    | _ => exact ⟨⟨.same hbytes havoids, trivial⟩, h⟩

theorem finish (h : s.Beside x s') :
    s'.finish.diagnostics = [] ↔ s.finish.diagnostics = [] := by
  have hstack : s'.stack = [] ↔ s.stack = [] := by
    have hlength := h.stack.length_eq
    rw [← List.length_eq_zero_iff, ← List.length_eq_zero_iff, hlength]
  rw [finish_diagnostics, finish_diagnostics]
  simp only [List.append_eq_nil_iff, List.map_eq_nil_iff, h.quiet, hstack]

end Beside
end State
end Declarations

end Z80Asm
