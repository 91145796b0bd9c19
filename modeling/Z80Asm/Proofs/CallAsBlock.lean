import Z80Asm.Proofs.CallLayout
import Z80Asm.Proofs.Operands

/-! A macro call means a block in which its parameters are labels with the arguments as their
values, followed by a copy of the macro's body. -/

namespace Z80Asm
set_option autoImplicit true

section
variable {scope : String} {loc : Location} {params : List String} {args : List Value}

theorem Macro.mem_declaredBindings (h : e ∈ declaredBindings scope loc params args) :
    (∃ l, e = ⟨loc, .label l⟩) ∨ ∃ v, e = ⟨loc, .equ v⟩ := by
  obtain ⟨p, -, he⟩ := List.mem_flatMap.1 h
  rcases List.mem_cons.1 he with he | he
  · exact .inl ⟨_, he⟩
  · exact .inr ⟨_, List.mem_singleton.1 he⟩

namespace Patch

theorem thread_declaredBindings (s : State) :
    Program.thread State.step s (Macro.declaredBindings scope loc params args) =
      (Macro.declaredBindings scope loc params args, s) := by
  apply Program.thread_still
  intro e he
  rcases Macro.mem_declaredBindings he with ⟨l, rfl⟩ | ⟨v, rfl⟩
  · rfl
  · rfl

theorem thread_asBlock {c : MacroCall} (hc : c.expanded = true) (s : State) (loc : Location)
    (name scope : String) (params : List String) (args : List Value)
    (front body back : List Element) :
    ∃ front' body' back' s',
      Program.thread State.step s (front ++ ([⟨loc, .call c⟩] ++
          (body ++ ([⟨loc, .endCall name scope⟩] ++ back)))) =
        (front' ++ ([⟨loc, .call c⟩] ++ (body' ++ ([⟨loc, .endCall name scope⟩] ++ back'))), s') ∧
      Program.thread State.step s (front ++ ([⟨loc, .block c.scope⟩] ++
          (Macro.declaredBindings c.scope loc params args ++
            (body ++ ([⟨loc, .endBlock scope⟩] ++ back))))) =
        (front' ++ ([⟨loc, .block c.scope⟩] ++ (Macro.declaredBindings c.scope loc params args ++
          (body' ++ ([⟨loc, .endBlock scope⟩] ++ back')))), s') := by
  generalize hfront : Program.thread State.step s front = r
  obtain ⟨front', s₀⟩ := r
  generalize hs₁ : ({ s₀ with scopes := c.scope :: s₀.scopes } : State) = s₁
  have hcall : Program.thread State.step s₀ [⟨loc, .call c⟩] = ([⟨loc, .call c⟩], s₁) := by
    have hafter : s₀.scopes.after (.call c) = c.scope :: s₀.scopes := if_pos hc
    change ([(⟨loc, .call c⟩ : Element)],
      ({ s₀ with scopes := s₀.scopes.after (.call c) } : State)) = _
    rw [hafter, hs₁]
  have hblock : Program.thread State.step s₀ [⟨loc, .block c.scope⟩] =
      ([⟨loc, .block c.scope⟩], s₁) := by
    rw [← hs₁]
    rfl
  generalize hbody : Program.thread State.step s₁ body = r
  obtain ⟨body', s₂⟩ := r
  generalize hs₃ : ({ s₂ with scopes := s₂.scopes.tail } : State) = s₃
  have hendCall : Program.thread State.step s₂ [⟨loc, .endCall name scope⟩] =
      ([⟨loc, .endCall name scope⟩], s₃) := by
    rw [← hs₃]
    rfl
  have hendBlock : Program.thread State.step s₂ [⟨loc, .endBlock scope⟩] =
      ([⟨loc, .endBlock scope⟩], s₃) := by
    rw [← hs₃]
    rfl
  refine ⟨front', body', (Program.thread State.step s₃ back).1,
    (Program.thread State.step s₃ back).2, ?_, ?_⟩
  · exact Program.thread_append_eq hfront (Program.thread_append_eq hcall
      (Program.thread_append_eq hbody (Program.thread_append_eq hendCall rfl)))
  · exact Program.thread_append_eq hfront (Program.thread_append_eq hblock
      (Program.thread_append_eq (thread_declaredBindings s₁) (Program.thread_append_eq hbody
        (Program.thread_append_eq hendBlock rfl))))

end Patch

theorem Program.templates_asBlock {c : MacroCall} {front body back es es' : List Element}
    (hes : outside es = front ++ ([⟨loc, .call c⟩] ++
      (body ++ ([⟨loc, .endCall name scope⟩] ++ back))))
    (hes' : outside es' = front ++ ([⟨loc, .block c.scope⟩] ++
      (Macro.declaredBindings c.scope loc params args ++
        (body ++ ([⟨loc, .endBlock scope⟩] ++ back))))) :
    templates es' = templates es := by
  have hbindings : (Macro.declaredBindings c.scope loc params args).filterMap
      Element.template? = [] := by
    rw [List.filterMap_eq_nil_iff]
    intro e he
    rcases Macro.mem_declaredBindings he with ⟨l, rfl⟩ | ⟨v, rfl⟩
    · rfl
    · rfl
  rw [templates_eq, templates_eq, hes, hes']
  simp only [List.filterMap_append, hbindings, List.nil_append]
  rfl

theorem Patch.patch_asBlock {c : MacroCall} {front body back es es' : List Element}
    (hc : c.expanded = true)
    (hes : Program.outside es = front ++ ([⟨loc, .call c⟩] ++
      (body ++ ([⟨loc, .endCall name scope⟩] ++ back))))
    (hes' : Program.outside es' = front ++ ([⟨loc, .block c.scope⟩] ++
      (Macro.declaredBindings c.scope loc params args ++
        (body ++ ([⟨loc, .endBlock scope⟩] ++ back))))) (t : SymbolTable) :
    (patch es' t).diagnostics = (patch es t).diagnostics ∧
      (patch es' t).table = (patch es t).table ∧
      Program.templates (patch es' t).program = Program.templates (patch es t).program := by
  obtain ⟨front', body', back', s, hcall, hblock⟩ :=
    thread_asBlock hc { memo := ⟨t, []⟩ } loc name scope params args front body back
  rw [← hes] at hcall
  rw [← hes'] at hblock
  have hstate : State.through t (Program.outside es') = State.through t (Program.outside es) := by
    unfold State.through
    rw [hcall, hblock]
  refine ⟨?_, ?_, ?_⟩
  · rw [patch_diagnostics, patch_diagnostics, hstate]
  · rw [patch_table, patch_table, hstate]
  · apply Program.templates_asBlock
    · rw [outside_patch, hcall]
    · rw [outside_patch, hblock]

end

/-- Elements outside of definitions, with all calls expanded. -/
def Macro.expansion (t : MacroTable) (limit : Nat) (es : List Element) : List Element :=
  Program.outside (expandAll t limit es).1

/-- The call stands between `pre` and `post`, outside of definitions, and is one of the macro `m`.
It has an argument for every parameter. Calls are nested less than `limit` levels deep, and in the
body they and blocks are closed. No argument has a scope of its own, and none of the names in it is
`$` or one that the macro declares in its own scope. -/
structure Macro.CallSite (m : Macro) (c : MacroCall) (loc : Location) (pre post : List Element)
    (macros : MacroTable) (limit : Nat) : Prop where
  extracted : macros = (extract (pre ++ ([⟨loc, .call c⟩] ++ post))).1
  outside : Program.depthBehind 0 pre = 0
  pending : c.isPending = true
  known : macros.find? c.name = some m
  arity : c.args.length = m.params.length
  distinct : m.params.Nodup
  nests : NestsBelow macros limit (pre ++ ([⟨loc, .call c⟩] ++ post))
  closed : Program.WellBracketed (expansion macros limit m.body)
  args : ∀ a ∈ c.args, a.scope? = none ∧ "$" ∉ a.mentions ∧
    ∀ x ∈ a.mentions, x ∉ m.params ∧ x ∉ Program.topLabels (expansion macros limit m.body)

namespace Assembly

section
variable {front body back es es' : List Element} {c : MacroCall} {loc : Location} {name : String}

/-- Outside of definitions `es` has the expanded call `c` with the copy `body` of the macro's body,
and `es'` has the block for it instead. -/
structure Exchanged (front body back es es' : List Element) (c : MacroCall) (loc : Location)
    (name : String) : Prop where
  call : Program.outside es = front ++ ([⟨loc, .call c⟩] ++
    (body ++ ([⟨loc, .endCall name ""⟩] ++ back)))
  block : Program.outside es' = front ++ ([⟨loc, .block ""⟩] ++
    (Macro.bindings loc c.params c.args ++ (body ++ ([⟨loc, .endBlock ""⟩] ++ back))))
  expanded : c.expanded = true
  arity : c.args.length = c.params.length
  distinct : c.params.Nodup
  closed : Program.WellBracketed body
  args : ∀ a ∈ c.args, a.scope? = none ∧ "$" ∉ a.mentions ∧
    ∀ x ∈ a.mentions, x ∉ c.params ∧ x ∉ Program.topLabels body
  names : ∀ e ∈ Program.outside es, e.PlainNames
  unscoped : ∀ e ∈ front, e.Unscoped

/-- Layout places the same elements, with tables that have the same symbols in the end. -/
theorem Exchanged.layout (h : Exchanged front body back es es' c loc name) :
    (Declarations.collect es').diagnostics = (Declarations.collect es).diagnostics ∧
      ∃ front' body' back' scope s t,
        Program.thread Layout.State.step { table := (Declarations.collect es).table }
            (Program.outside (Declarations.collect es).program) =
          (front' ++ ([⟨loc, .call { c with scope }⟩] ++
            (body' ++ ([⟨loc, .endCall name scope⟩] ++ back'))), s) ∧
        Program.thread Layout.State.step { table := (Declarations.collect es').table }
            (Program.outside (Declarations.collect es').program) =
          (front' ++ ([⟨loc, .block scope⟩] ++
            (Macro.declaredBindings scope loc c.params c.args ++
              (body' ++ ([⟨loc, .endBlock scope⟩] ++ back')))), s.withTable t) ∧
        Memo.Parallel SymbolTable.Everything (Declarations.collect es).table
          (Declarations.collect es).table ⟨s.table, []⟩ ⟨t, []⟩ := by
  have hnames := h.names
  rw [h.call] at hnames
  have hparams := hnames ⟨loc, .call c⟩ (List.mem_append_right _ List.mem_cons_self)
  obtain ⟨front₁, body₁, back₁, k, ks, hold, hnew, htable, hreports, hlocal, hpassed⟩ :=
    Declarations.thread_asBlock loc name h.expanded h.arity h.distinct h.closed hnames h.unscoped
  rw [← h.call] at hold htable hreports hpassed
  rw [← h.block] at hnew htable hreports
  have hlisted : ∀ e ∈ front₁ ++ ([⟨loc, .call { c with scope := Scope.path (k :: ks) }⟩] ++
      (body₁ ++ ([⟨loc, .endCall name (Scope.path (k :: ks))⟩] ++ back₁))),
      Declarations.Listed
        (Program.thread Declarations.State.step {} (Program.outside es)).2.table e := by
    rw [← hold]
    exact fun e he => Declarations.listed_thread he
  simp only [List.mem_append, or_imp, forall_and] at hlisted
  obtain ⟨hlisted₁, -, hlisted₂, -, hlisted₃⟩ := hlisted
  obtain ⟨front₂, body₂, back₂, s, t, hplaced, hplaced', hparallel⟩ :=
    Layout.thread_asBlock hpassed h.expanded hparams h.arity h.distinct h.args
      (fun e he => (hlocal e he).1) (fun e he => (hlocal e he).2) hlisted₁ hlisted₂ hlisted₃ loc
      name
  rw [← hold, ← Declarations.outside_collect, ← Declarations.collect_table] at hplaced
  rw [← hnew, ← htable, ← Declarations.outside_collect, ← Declarations.collect_table] at hplaced'
  rw [← Declarations.collect_table] at hparallel
  refine ⟨?_, front₂, body₂, back₂, Scope.path (k :: ks), s, t, hplaced, hplaced', hparallel⟩
  rw [Declarations.collect_diagnostics, Declarations.collect_diagnostics, hreports]

/-- The passes after expansion on a program with a call and on one with the block that it stands
for. -/
theorem Exchanged.passes (h : Exchanged front body back es es' c loc name) :
    let declared := Declarations.collect es
    let declared' := Declarations.collect es'
    let placed := Layout.assign declared.program declared.table
    let placed' := Layout.assign declared'.program declared'.table
    let patched := Patch.patch placed.program placed.table.evaluate.1
    let patched' := Patch.patch placed'.program placed'.table.evaluate.1
    declared'.diagnostics = declared.diagnostics ∧ placed'.diagnostics = placed.diagnostics ∧
      placed'.table.evaluate.2 = placed.table.evaluate.2 ∧
      (placed.table.evaluate.2 = [] → patched'.diagnostics = patched.diagnostics ∧
        patched'.table = patched.table ∧
        Program.templates patched'.program = Program.templates patched.program) := by
  intro declared declared' placed placed' patched patched'
  obtain ⟨hreports, _, _, _, scope, s, t, hplaced, hplaced', hparallel⟩ := h.layout
  have hprogram := (Layout.outside_assign _ _).trans (congrArg Prod.fst hplaced)
  have hprogram' := (Layout.outside_assign _ _).trans (congrArg Prod.fst hplaced')
  have htable : placed.table = s.table :=
    (Layout.assign_table _ _).trans (congrArg (fun r => r.2.table) hplaced)
  have htable' : placed'.table = t :=
    (Layout.assign_table _ _).trans (congrArg (fun r => r.2.table) hplaced')
  have hdiagnostics : placed.diagnostics = s.diagnostics :=
    (Layout.assign_diagnostics _ _).trans (congrArg (fun r => r.2.diagnostics) hplaced)
  have hdiagnostics' : placed'.diagnostics = s.diagnostics :=
    (Layout.assign_diagnostics _ _).trans (congrArg (fun r => r.2.diagnostics) hplaced')
  obtain ⟨hevaluated, hequal⟩ := SymbolTable.evaluate_together hparallel
  rw [← htable, ← htable'] at hevaluated hequal
  refine ⟨hreports, hdiagnostics'.trans hdiagnostics.symm, hevaluated, fun hquiet => ?_⟩
  unfold patched patched'
  rw [hequal hquiet]
  exact Patch.patch_asBlock (c := { c with scope }) h.expanded hprogram hprogram' _

end

/-- One assembly is free of problems if the other is, and then they have the same results. -/
def Agree (a a' : Assembly) : Prop :=
  (a'.diagnostics = [] ↔ a.diagnostics = []) ∧
    (a.diagnostics = [] → a'.image = a.image ∧ a'.origin = a.origin ∧ a'.table = a.table)

theorem layout_of_macros {macros : MacroTable} (h : (Macro.extract es).1 = macros) (passes : Int) :
    Layout.assign (Declarations.collect (Macro.expandAll macros (passLimit passes) es).1).program
      (Declarations.collect (Macro.expandAll macros (passLimit passes) es).1).table =
      layout es passes := by
  rw [← h]
  rfl

/-- A macro call means a block of labels for its parameters, with the arguments as their values, and
a copy of the body: one program is assembled without problems if the other is, with the same
results. No declared name may begin with a scope segment, and no value before the call may have a
scope of its own. -/
theorem assemble_asBlock {m : Macro} {c : MacroCall} {loc : Location} {pre post : List Element}
    {macros : MacroTable} (passes : Int)
    (h : m.CallSite c loc pre post macros (passLimit passes))
    (hnames : ∀ e ∈ Macro.expansion macros (passLimit passes) (pre ++ ([⟨loc, .call c⟩] ++ post)),
      e.PlainNames)
    (hfront : ∀ e ∈ Macro.expansion macros (passLimit passes) pre, e.Unscoped) :
    Agree (assemble (pre ++ ([⟨loc, .call c⟩] ++ post)) passes)
      (assemble (pre ++ (m.asBlock loc c.args ++ post)) passes) := by
  have ht : Macro.Plain macros := h.extracted ▸ Macro.plain_extract _
  have hunmarked : ∀ e ∈ m.body, Program.isMark e.stmt = false :=
    ht m (Macro.mem_of_find? h.known)
  have hextract : Macro.extract (pre ++ (m.asBlock loc c.args ++ post)) =
      Macro.extract (pre ++ ([⟨loc, .call c⟩] ++ post)) :=
    (Macro.extract_middle h.outside (Macro.unmarked_asBlock hunmarked loc c.args) post).trans
      (Macro.extract_middle h.outside (Macro.unmarked_call loc c) post).symm
  obtain ⟨hcall, hblock, hexpanded⟩ :=
    Macro.expandAll_asBlock h.nests ht h.outside h.pending h.known c.args
  have hexchanged : Exchanged _ _ _ _ _ (m.expandedCall c) loc _ :=
    ⟨hcall, hblock, rfl, h.arity, h.distinct, h.closed, h.args, hnames, hfront⟩
  obtain ⟨hdeclared, hplaced, hevaluated, hpatched⟩ := hexchanged.passes
  rw [layout_of_macros h.extracted.symm, layout_of_macros (h.extracted.trans (congrArg Prod.fst
    hextract.symm)).symm] at hplaced hevaluated hpatched
  constructor
  · rw [quiet_iff, quiet_iff, hextract, ← h.extracted, hexpanded, hdeclared, hplaced, hevaluated]
    constructor
    · rintro ⟨h₁, h₂, h₃, h₄, h₅, h₆, h₇⟩
      obtain ⟨hdiagnostics, -, htemplates⟩ := hpatched h₅
      rw [hdiagnostics] at h₆
      rw [(image_congr htemplates).1] at h₇
      exact ⟨h₁, h₂, h₃, h₄, h₅, h₆, h₇⟩
    · rintro ⟨h₁, h₂, h₃, h₄, h₅, h₆, h₇⟩
      obtain ⟨hdiagnostics, -, htemplates⟩ := hpatched h₅
      rw [← hdiagnostics] at h₆
      rw [← (image_congr htemplates).1] at h₇
      exact ⟨h₁, h₂, h₃, h₄, h₅, h₆, h₇⟩
  · intro hq
    rw [quiet_iff] at hq
    obtain ⟨-, -, -, -, hq, -, -⟩ := hq
    obtain ⟨-, htable, htemplates⟩ := hpatched hq
    obtain ⟨himage, horigin⟩ := image_congr htemplates
    rw [image_eq, image_eq, origin_eq, origin_eq, assemble_program, assemble_program,
      assemble_table, assemble_table]
    exact ⟨himage, horigin, htable⟩

end Assembly

namespace Assembly

def byteMacro : Macro :=
  ⟨"m", ["p"], [⟨⟨"f", 2⟩, .bytes ⟨[.expr (.deferred "p" ["p"])], 0, 0, false⟩⟩], ⟨"f", 1⟩⟩

def behindByteMacro (es : List Element) : List Element :=
  [⟨⟨"f", 1⟩, .macroDef "m" ["p"]⟩] ++ (byteMacro.body ++ ([⟨⟨"f", 3⟩, .endMacro⟩] ++ es))

def byteCall (a : Value) : MacroCall := { name := "m", args := [a] }

def byteSite (es : List Element) (a : Value) : Prop :=
  byteMacro.CallSite (byteCall a) ⟨"f", 9⟩ (behindByteMacro es) [] [byteMacro] (passLimit 2)

def byteProgram (es : List Element) (a : Value) : List Element :=
  behindByteMacro es ++ ([⟨⟨"f", 9⟩, .call (byteCall a)⟩] ++ [])

def byteBlock (es : List Element) (a : Value) : List Element :=
  behindByteMacro es ++ (byteMacro.asBlock ⟨"f", 9⟩ [a] ++ [])

theorem byteSite_of (hextracted : (Macro.extract (byteProgram es a)).1 = [byteMacro])
    (houtside : Program.depthBehind 0 (behindByteMacro es) = 0)
    (hnests : Macro.NestsBelow [byteMacro] (passLimit 2) (byteProgram es a))
    (hscope : a.scope? = none) (hhere : "$" ∉ a.mentions) (hparam : "p" ∉ a.mentions) :
    byteSite es a := by
  have htop :
      Program.topLabels (Macro.expansion [byteMacro] (passLimit 2) byteMacro.body) = [] := by
    cbv
  refine ⟨hextracted.symm, houtside, rfl, rfl, rfl, List.nodup_singleton "p", hnests, ?_, ?_⟩
  · unfold Program.WellBracketed
    cbv
  · intro v hv
    rw [List.mem_singleton.1 hv, htop]
    refine ⟨hscope, hhere, fun x hx => ⟨fun hp => ?_, List.not_mem_nil⟩⟩
    rw [List.mem_singleton.1 hp] at hx
    exact hparam hx

def plainFront : List Element :=
  [⟨⟨"f", 4⟩, .label { name := "x" }⟩, ⟨⟨"f", 5⟩, .equ (.number 7)⟩]

theorem assemble_asBlock_plain :
    byteSite plainFront (.deferred "x+1" ["x"]) ∧
      (assemble (byteProgram plainFront (.deferred "x+1" ["x"])) 2).bytes = [8] ∧
      Agree (assemble (byteProgram plainFront (.deferred "x+1" ["x"])) 2)
        (assemble (byteBlock plainFront (.deferred "x+1" ["x"])) 2) := by
  have hmentions : (Value.deferred "x+1" ["x"]).mentions = ["x"] := by cbv
  have hsite : byteSite plainFront (.deferred "x+1" ["x"]) := by
    apply byteSite_of
    · cbv
    · cbv
    · unfold Macro.NestsBelow
      cbv
    · rfl
    · rw [hmentions]
      decide
    · rw [hmentions]
      decide
  exact ⟨hsite, by cbv, assemble_asBlock 2 hsite (by decide +kernel) (by decide +kernel)⟩

/-- A label with the name that `x` would have in the scope of the call. -/
def segmentedFront : List Element :=
  [⟨⟨"f", 4⟩, .label { name := "x" }⟩, ⟨⟨"f", 5⟩, .equ (.number 1)⟩,
    ⟨⟨"f", 6⟩, .label { name := "%0_x" }⟩, ⟨⟨"f", 7⟩, .equ (.number 2)⟩]

theorem byteSite_segmentedFront : byteSite segmentedFront (.deferred "x" ["x"]) := by
  have hmentions : (Value.deferred "x" ["x"]).mentions = ["x"] := by cbv
  apply byteSite_of
  · cbv
  · cbv
  · unfold Macro.NestsBelow
    cbv
  · rfl
  · rw [hmentions]
    decide
  · rw [hmentions]
    decide

theorem bytes_segmentedFront :
    (assemble (byteProgram segmentedFront (.deferred "x" ["x"])) 2).diagnostics = [] ∧
      (assemble (byteProgram segmentedFront (.deferred "x" ["x"])) 2).bytes = [1] ∧
      (assemble (byteBlock segmentedFront (.deferred "x" ["x"])) 2).bytes = [2] := by
  cbv
  exact ⟨rfl, rfl⟩

/-- An address that is looked up in the scope of a call further down. -/
def scopedFront : List Element :=
  [⟨⟨"f", 4⟩, .label { name := "y" }⟩,
    ⟨⟨"f", 5⟩, .equ ⟨.deferred "p" ["p"], some "%0_", none⟩⟩,
    ⟨⟨"f", 6⟩, .org (.deferred "y" ["y"])⟩]

theorem byteSite_scopedFront : byteSite scopedFront (.number 5) := by
  apply byteSite_of
  · cbv
  · cbv
  · unfold Macro.NestsBelow
    cbv
  · rfl
  · exact List.not_mem_nil
  · exact List.not_mem_nil

theorem quiet_scopedFront :
    (assemble (byteProgram scopedFront (.number 5)) 2).diagnostics = [] := by
  cbv

/-- In the block the parameter is a label to come, and the address has no value yet. -/
theorem scopedFront_reported :
    (assemble (byteBlock scopedFront (.number 5)) 2).diagnostics ≠ [] := by
  intro hquiet
  obtain ⟨-, -, -, hlayout, -⟩ := (quiet_iff _ _).1 hquiet
  have hdeclared : Program.outside (Declarations.collect (Macro.expandAll
      (Macro.extract (byteBlock scopedFront (.number 5))).1 (passLimit 2)
      (byteBlock scopedFront (.number 5))).1).program =
      [⟨⟨"f", 4⟩, .label ⟨"y", false, "y"⟩⟩,
        ⟨⟨"f", 5⟩, .equ ⟨.deferred "p" ["p"], some "%0_", none⟩⟩] ++
      ⟨⟨"f", 6⟩, .org (.deferred "y" ["y"])⟩ ::
      [⟨⟨"f", 9⟩, .block "%0_"⟩, ⟨⟨"f", 9⟩, .label ⟨"p", false, "%0_p"⟩⟩,
        ⟨⟨"f", 9⟩, .equ (.number 5)⟩,
        ⟨⟨"f", 2⟩, .bytes ⟨[.expr (.deferred "p" ["p"])], 0, 0, false⟩⟩,
        ⟨⟨"f", 9⟩, .endBlock "%0_"⟩] := by
    cbv
  obtain ⟨d, n, hd, -⟩ :=
    Layout.State.directive_of_quiet _ rfl (Layout.quiet_step hlayout hdeclared)
  rw [SymbolTable.operand_eq_ok] at hd
  change SymbolTable.evalIn _ _ _ _ "y" = _ at hd
  rw [SymbolTable.evalIn_ident (x := "y") (q := "y") (by cbv) (by decide) (by cbv),
    SymbolTable.meaning_of_deferred (v := ⟨.deferred "p" ["p"], some "%0_", none⟩) (by cbv) rfl,
    SymbolTable.evalIn_ident (x := "p") (q := "%0_p") (by cbv) (by decide) (by cbv),
    SymbolTable.meaning_of_unresolved (v := .unresolved) (by cbv) rfl] at hd
  cases hd

/-- Names with segments may capture those of arguments, and values with scopes of their own may
reach parameters before the call. In both cases the block is not the same as the call. -/
theorem asBlock_differs :
    Program.topLabels (Macro.expansion [byteMacro] (passLimit 2) byteMacro.body) = [] ∧
      byteSite segmentedFront (.deferred "x" ["x"]) ∧
      ¬ Agree (assemble (byteProgram segmentedFront (.deferred "x" ["x"])) 2)
        (assemble (byteBlock segmentedFront (.deferred "x" ["x"])) 2) ∧
      byteSite scopedFront (.number 5) ∧
      ¬ Agree (assemble (byteProgram scopedFront (.number 5)) 2)
        (assemble (byteBlock scopedFront (.number 5)) 2) := by
  refine ⟨by cbv, byteSite_segmentedFront, fun h => ?_, byteSite_scopedFront, fun h => ?_⟩
  · obtain ⟨hquiet, hcall, hblock⟩ := bytes_segmentedFront
    have himage := (h.2 hquiet).1
    rw [bytes, himage] at hblock
    exact absurd (hcall.symm.trans hblock) (by decide)
  · exact scopedFront_reported (h.1.2 quiet_scopedFront)

end Assembly
end Z80Asm
