import Z80Asm.Proofs.Operands

/-! What is left open is reported: a template that is not all bytes has a problem at its location, a
symbol that is still deferred has one somewhere, and only parameters without an argument end without
a value. -/

namespace Z80Asm
set_option autoImplicit true

/-- The problem is one that leaves slots of a template at `loc` open. -/
def Diagnostic.Opens (d : Diagnostic) (loc : Location) : Prop :=
  d.loc = loc ∧ (d.category = .resolution ∨ d.category = .encoding)

/-- All slots are bytes, or it is reported at `loc` that some are not. -/
def Accounted (loc : Location) (slots : List Slot) (ds : List Diagnostic) : Prop :=
  (∀ slot ∈ slots, ∃ b, slot = .byte b) ∨ ∃ d ∈ ds, d.Opens loc

theorem Accounted.bytes (loc : Location) (bs : List UInt8) (ds : List Diagnostic) :
    Accounted loc (bs.map .byte) ds := by
  left
  intro slot hs
  obtain ⟨b, -, rfl⟩ := List.mem_map.1 hs
  exact ⟨b, rfl⟩

theorem Accounted.adds (h : Accounted loc slots ds) (ha : Adds ds ds') :
    Accounted loc slots ds' := by
  rcases h with h | ⟨d, hd, ho⟩
  · exact .inl h
  · obtain ⟨new, rfl, -⟩ := ha
    exact .inr ⟨d, List.mem_append_left new hd, ho⟩

theorem Accounted.append (h : Accounted loc slots ds) (h' : Accounted loc slots' ds) :
    Accounted loc (slots ++ slots') ds := by
  rcases h with h | hd
  · rcases h' with h' | hd
    · left
      intro slot hs
      rcases List.mem_append.1 hs with hs | hs
      · exact h slot hs
      · exact h' slot hs
    · exact .inr hd
  · exact .inr hd

theorem Accounted.eq_bytes {t : Template} (h : Accounted loc t.slots []) :
    t.slots = t.data.map .byte := by
  rcases h with h | ⟨d, hd, -⟩
  · rw [Template.data, List.map_map]
    conv => lhs; rw [← List.map_id t.slots]
    apply List.map_congr_left
    intro slot hs
    obtain ⟨b, rfl⟩ := h slot hs
    rfl
  · cases hd

namespace Patch.State

theorem accounted_report (s : State) (hp : p.category = .resolution ∨ p.category = .encoding)
    (loc : Location) (slots : List Slot) :
    Accounted loc slots (s.report p loc).diagnostics.toList := by
  rw [diagnostics_report]
  exact .inr ⟨⟨p, loc⟩, List.mem_append_right _ List.mem_cons_self, rfl, hp⟩

theorem patchByte_accounted (s : State) (site : Site) (v : Value) :
    Accounted site.loc (s.patchByte site v).1 (s.patchByte site v).2.diagnostics.toList := by
  unfold patchByte
  split
  · exact accounted_report _ (.inl rfl) _ _
  · exact .bytes _ [_] _
  · split
    · exact .bytes _ [_] _
    · split
      · exact accounted_report _ (.inr rfl) _ _
      · exact .bytes _ _ _

theorem patchWord_accounted (s : State) (site : Site) (v : Value) :
    Accounted site.loc (s.patchWord site v).1 (s.patchWord site v).2.diagnostics.toList := by
  unfold patchWord
  split
  · exact accounted_report _ (.inl rfl) _ _
  · split
    · exact .bytes _ [_, _] _
    · exact accounted_report _ (.inl rfl) _ _

theorem patchRelative_accounted (s : State) (site : Site) (length : Nat) (v : Value) :
    Accounted site.loc [(s.patchRelative site length v).1]
      (s.patchRelative site length v).2.diagnostics.toList := by
  unfold patchRelative
  dsimp only
  split
  · exact accounted_report _ (.inl rfl) _ _
  · split
    · exact accounted_report _ (.inr rfl) _ _
    · exact .bytes _ [_] _

/-- Patching accounts for every slot, as high bytes stand only behind their operands. -/
theorem patchSlots_accounted (hp : Paired slots) (s : State) (site : Site) (done : Array Slot)
    (h : Accounted site.loc done.toList s.diagnostics.toList) :
    Accounted site.loc (s.patchSlots site done slots).1
      (s.patchSlots site done slots).2.diagnostics.toList := by
  induction hp generalizing s done with
  | nil => exact h
  | byte _ ih =>
    rename_i rest b _
    rw [patchSlots_byte]
    apply ih
    rw [Array.toList_push]
    exact h.append (.bytes _ [b] _)
  | expr hp ih =>
    rw [patchSlots_expr s site done _ hp.not_high]
    apply ih
    rw [Array.toList_append]
    exact (h.adds (s.patchByte_advances site _).reports).append (s.patchByte_accounted site _)
  | word _ ih =>
    rw [patchSlots_word]
    apply ih
    rw [Array.toList_append]
    exact (h.adds (s.patchWord_advances site _).reports).append (s.patchWord_accounted site _)
  | relative _ ih =>
    rw [patchSlots_relative]
    apply ih
    rw [Array.toList_push]
    exact (h.adds (s.patchRelative_advances site _ _).reports).append
      (s.patchRelative_accounted site _ _)

theorem step_accounted (s : State) (e : Element) (he : ∀ t, e.stmt = .bytes t → Paired t.slots)
    (ht : (s.step e).1 = .bytes t) :
    Accounted e.loc t.slots (s.step e).2.diagnostics.toList := by
  obtain ⟨loc, stmt⟩ := e
  cases stmt with
  | bytes t₀ =>
    rw [step_bytes] at ht ⊢
    cases ht
    exact patchSlots_accounted (he t₀ rfl) s ⟨loc, t₀.address, t₀.placed⟩ #[] (.bytes _ [] _)
  | _ => cases ht

theorem thread_accounted (s : State)
    (hes : ∀ e ∈ es, ∀ t, e.stmt = .bytes t → Paired t.slots)
    (he : e ∈ (Program.thread step s es).1) (ht : e.stmt = .bytes t) :
    Accounted e.loc t.slots (Program.thread step s es).2.diagnostics.toList := by
  induction es generalizing s with
  | nil => cases he
  | cons a es ih =>
    rcases List.mem_cons.1 he with rfl | he
    · exact (s.step_accounted a (hes a List.mem_cons_self) ht).adds (thread_reports _ es)
    · exact ih _ (fun b hb => hes b (List.mem_cons_of_mem a hb)) he

end Patch.State

theorem Patch.accounted_patch (hes : ∀ e ∈ Program.outside es, ∀ t, e.stmt = .bytes t →
      Paired t.slots) (table : SymbolTable)
    (he : e ∈ Program.outside (patch es table).program) (ht : e.stmt = .bytes t) :
    Accounted e.loc t.slots (patch es table).diagnostics := by
  rw [outside_patch] at he
  rw [patch_diagnostics]
  exact State.thread_accounted _ hes he ht

theorem Layout.paired_assign (hes : ∀ e ∈ Program.outside es, ∀ t, e.stmt = .bytes t →
      Paired t.slots) (table : SymbolTable)
    (he : e ∈ Program.outside (assign es table).program) (ht : e.stmt = .bytes t) :
    Paired t.slots := by
  rw [outside_assign] at he
  obtain ⟨s, a, ha, rfl⟩ := Program.mem_thread he
  obtain ⟨t₀, ht₀, rfl⟩ := State.bytes_of_step ht
  rw [State.slots_placeTemplate]
  exact (hes a ha t₀ ht₀).reserved _

theorem Declarations.State.bytes_of_step {s : State} (h : (s.step e).1 = .bytes t) :
    e.stmt = .bytes t := by
  obtain ⟨loc, stmt⟩ := e
  cases stmt with
  | bytes t₀ => exact h
  | call c =>
    unfold step at h
    dsimp only at h
    split at h <;> cases h
  | _ => cases h

theorem Declarations.paired_collect (hes : ∀ e ∈ Program.outside es, ∀ t, e.stmt = .bytes t →
      Paired t.slots)
    (he : e ∈ Program.outside (collect es).program) (ht : e.stmt = .bytes t) :
    Paired t.slots := by
  rw [outside_collect] at he
  obtain ⟨s, a, ha, rfl⟩ := Program.mem_thread he
  exact hes a ha t (State.bytes_of_step ht)

namespace SymbolTable

theorem evaluate_category (t : SymbolTable) : ∀ d ∈ t.evaluate.2, d.category = .resolution := by
  have hfold (names : List String) (s : Memo × List Diagnostic)
      (hs : ∀ d ∈ s.2, d.category = .resolution) :
      ∀ d ∈ (names.foldl evaluateSymbol s).2, d.category = .resolution := by
    induction names generalizing s with
    | nil => exact hs
    | cons name names ih =>
      apply ih
      rcases evaluateSymbol_cases s.1 s.2 name with ⟨d, s', -, he⟩ | ⟨e, s', -, he⟩ | ⟨-, he⟩
      · rw [he]
        exact hs
      · rw [he]
        intro d hd
        rcases List.mem_append.1 hd with hd | hd
        · exact hs d hd
        · rw [List.mem_singleton.1 hd]
          rfl
      · rw [he]
        exact hs
  exact hfold t.names (⟨t, []⟩, []) fun d hd => (List.not_mem_nil hd).elim

theorem reported_of_deferred {t : SymbolTable} (hv : t.evaluate.1.get? q = some v)
    (hd : v.isDeferred = true) : ∃ d ∈ t.evaluate.2, d.category = .resolution := by
  have hne : t.evaluate.2 ≠ [] := by
    intro hq
    rw [not_deferred_of_quiet hq hv] at hd
    cases hd
  obtain ⟨d, hd⟩ := List.exists_mem_of_ne_nil _ hne
  exact ⟨d, hd, t.evaluate_category d hd⟩

theorem Settles.get?_of_unresolved (h : Settles t t') (hv : t'.get? q = some v)
    (hu : v.content = .unresolved) : t.get? q = some v := by
  rcases h.get?_cases hv with hv' | ⟨d, -, rfl⟩
  · exact hv'
  · cases d <;> cases hu

end SymbolTable

theorem Value.content_withScope (v : Value) (scope : String) :
    (v.withScope scope).content = v.content := by
  unfold withScope
  split <;> rfl

theorem Macro.legible_expandAll (hes : Legible (es.map Element.stmt)) (limit : Nat)
    (he : e ∈ Program.outside (expandAll (extract es).1 limit es).1) : e.stmt.Legible :=
  expandAll_forall (plain_extract es) (P := fun e => e.stmt.Legible)
    (fun e he => hes e.stmt (List.mem_map_of_mem (Program.mem_of_mem_outside he)))
    (fun _ hm e he => hes e.stmt (List.mem_map_of_mem (mem_of_mem_body hm he).1))
    (fun _ _ _ hargs h v hv => h v (hargs ▸ hv)) (fun _ _ _ => trivial) limit e he

namespace Declarations

/-- A parameter of an expanded call among `es` that has no argument, by its qualified name. -/
def Unsupplied (es : List Element) (q : String) : Prop :=
  ∃ loc c i p, ⟨loc, .call c⟩ ∈ es ∧ c.expanded = true ∧ c.params[i]? = some p ∧
    c.args.length ≤ i ∧ q = c.scope ++ p

theorem Unsupplied.mono (h : Unsupplied es q) (hes : ∀ e ∈ es, e ∈ es') : Unsupplied es' q := by
  obtain ⟨loc, c, i, p, hc, hrest⟩ := h
  exact ⟨loc, c, i, p, hes _ hc, hrest⟩

namespace State

theorem get?_declare_cases {s : State} (h : (s.declare name v loc taken).table.get? q = some w) :
    s.table.get? q = some w ∨ q = name ∧ w = v := by
  unfold declare at h
  by_cases hn : name ∈ s.table.names
  · rw [SymbolTable.declare?_of_mem hn] at h
    exact .inl h
  · obtain ⟨t', ht', -, hget⟩ := SymbolTable.declare?_of_not_mem hn v loc
    rw [ht'] at h
    dsimp only at h
    rw [hget] at h
    split at h
    · rename_i hq
      exact .inr ⟨hq, (Option.some.inj h).symm⟩
    · exact .inl h

theorem bind_unresolved {s : State} {scope : String} {params : List String} {args : List Value}
    (hargs : ∀ v ∈ args, v.content ≠ .unresolved)
    (h : (s.bind c caller scope loc params args).table.get? q = some w)
    (hw : w.content = .unresolved) :
    s.table.get? q = some w ∨
      ∃ i p, params[i]? = some p ∧ args.length ≤ i ∧ q = scope ++ p := by
  induction params generalizing s args with
  | nil => exact .inl h
  | cons param params ih =>
    unfold bind at h
    have hrest : ∀ v ∈ args.tail, v.content ≠ .unresolved :=
      fun v hv => hargs v (List.mem_of_mem_tail hv)
    rcases ih hrest h with h | ⟨i, p, hp, hi, hq⟩
    · rcases get?_declare_cases h with h | ⟨hq, hv⟩
      · exact .inl h
      -- only a parameter without an argument is declared without a value
      · cases args with
        | nil => exact .inr ⟨0, param, rfl, Nat.le_refl _, hq⟩
        | cons arg args =>
          rw [hv, Value.content_withScope] at hw
          exact (hargs arg List.mem_cons_self hw).elim
    · refine .inr ⟨i + 1, p, hp, ?_, hq⟩
      rw [List.length_tail] at hi
      exact Nat.sub_le_iff_le_add.1 hi

theorem enterCall_unresolved {s : State} {c : MacroCall}
    (hargs : ∀ v ∈ c.args, v.content ≠ .unresolved)
    (h : (s.enterCall c loc).2.table.get? q = some w) (hw : w.content = .unresolved) :
    s.table.get? q = some w ∨ ∃ i p, c.params[i]? = some p ∧ c.args.length ≤ i ∧
      q = (s.enterCall c loc).1.scope ++ p := by
  rw [table_enterCall] at h
  exact bind_unresolved (s := (s.enter true loc).2) hargs h hw

theorem step_unresolved {s : State} {e : Element} (he : e.stmt.Legible)
    (h : (s.step e).2.table.get? q = some w) (hw : w.content = .unresolved) :
    s.table.get? q = some w ∨ q ∈ labelSymbols [{ e with stmt := (s.step e).1 }] ∨
      Unsupplied [{ e with stmt := (s.step e).1 }] q := by
  obtain ⟨loc, stmt⟩ := e
  cases stmt with
  | label l =>
    rcases get?_declare_cases h with h | ⟨hq, -⟩
    · exact .inl h
    · refine .inr (.inl ?_)
      rw [hq]
      exact List.mem_singleton.2 rfl
  | call c =>
    unfold step at h ⊢
    dsimp only at h ⊢
    cases hc : c.expanded with
    | false =>
      simp only [hc, Bool.false_eq_true, ↓reduceIte] at h
      exact .inl h
    | true =>
      simp only [hc, ↓reduceIte] at h ⊢
      rcases enterCall_unresolved he h hw with h | ⟨i, p, hp, hi, hq⟩
      · exact .inl h
      · exact .inr (.inr ⟨loc, _, i, p, List.mem_cons_self, hc, hp, hi, hq⟩)
  | endBlock =>
    change (s.leave false loc).2.table.get? q = some w at h
    rw [table_leave] at h
    exact .inl h
  | endCall =>
    change (s.leave true loc).2.table.get? q = some w at h
    rw [table_leave] at h
    exact .inl h
  | _ => exact .inl h

theorem thread_unresolved {s : State} (hes : ∀ e ∈ es, e.stmt.Legible)
    (h : (Program.thread step s es).2.table.get? q = some w) (hw : w.content = .unresolved) :
    s.table.get? q = some w ∨ q ∈ labelSymbols (Program.thread step s es).1 ∨
      Unsupplied (Program.thread step s es).1 q := by
  induction es generalizing s with
  | nil => exact .inl h
  | cons e es ih =>
    rw [Program.thread, labelSymbols_cons, List.mem_append]
    rcases ih (fun a ha => hes a (List.mem_cons_of_mem e ha)) h with h | h | h
    · rcases step_unresolved (hes e List.mem_cons_self) h hw with h | h | h
      · exact .inl h
      · exact .inr (.inl (.inl h))
      · refine .inr (.inr (h.mono fun a ha => ?_))
        rw [List.mem_singleton.1 ha]
        exact List.mem_cons_self
    · exact .inr (.inl (.inr h))
    · exact .inr (.inr (h.mono fun a => List.mem_cons_of_mem _))

end State

theorem unresolved_collect (hes : ∀ e ∈ Program.outside es, e.stmt.Legible)
    (h : (collect es).table.get? q = some w) (hw : w.content = .unresolved) :
    q ∈ labelSymbols (Program.outside (collect es).program) ∨
      Unsupplied (Program.outside (collect es).program) q := by
  rw [collect_table] at h
  rw [outside_collect]
  rcases State.thread_unresolved hes h hw with h | h
  · cases h
  · exact h

theorem equ_collect (hes : ∀ e ∈ Program.outside es, e.stmt.Legible)
    (he : e ∈ Program.outside (collect es).program) (hv : e.stmt = .equ v) :
    v.content ≠ .unresolved := by
  rw [outside_collect] at he
  obtain ⟨s, a, ha, rfl⟩ := Program.mem_thread he
  have hb := hes a ha
  obtain ⟨loc, stmt⟩ := a
  cases stmt with
  | equ w =>
    cases hv
    exact hb
  | call c =>
    unfold State.step at hv
    dsimp only at hv
    split at hv <;> cases hv
  | _ => cases hv

end Declarations

namespace Layout.State

theorem placeLabel_unresolved {s : State} {l : Label}
    (hl : (if l.symbol.isEmpty then l.name else l.symbol) = l.symbol)
    (h : (s.placeLabel l).2.table.get? q = some w) (hw : w.content = .unresolved) :
    s.table.get? q = some w ∧ q ≠ l.symbol := by
  have hset (h : (s.table.set l.symbol (.number s.address)).get? q = some w) :
      s.table.get? q = some w ∧ q ≠ l.symbol := by
    rw [SymbolTable.get?_set] at h
    split at h
    · cases h
      cases hw
    · rename_i hq
      exact ⟨h, hq⟩
  unfold placeLabel at h
  simp only [hl] at h
  split at h
  · exact hset h
  · exact hset h
  · rename_i v hne hv
    refine ⟨h, fun hq => ?_⟩
    rw [hq, hv] at h
    cases h
    obtain ⟨content, scope?, here?⟩ := w
    cases hw
    exact hne scope? here? rfl

theorem bind_unresolved {s : State} (hv : v.content ≠ .unresolved)
    (h : (s.bind v loc).table.get? q = some w) (hw : w.content = .unresolved) :
    s.table.get? q = some w := by
  unfold bind at h
  split at h
  · exact h
  · dsimp only at h
    rw [SymbolTable.get?_foldl_set] at h
    split at h
    · cases h
      refine (hv ?_).elim
      rw [← hw, ← Value.content_withScope v s.scopes.current]
      split <;> rfl
    · exact h

theorem step_unresolved {s : State} (hn : Declarations.Named e)
    (he : ∀ v, e.stmt = .equ v → v.content ≠ .unresolved)
    (h : (s.step e).2.table.get? q = some w) (hw : w.content = .unresolved) :
    s.table.get? q = some w ∧ q ∉ Declarations.labelSymbols [e] := by
  by_cases hl : ∃ l, e.stmt = .label l
  · obtain ⟨l, hl⟩ := hl
    rw [Declarations.labelSymbols_label hl, List.mem_singleton]
    obtain ⟨loc, stmt⟩ := e
    cases hl
    exact placeLabel_unresolved (hn l rfl) h hw
  · have hl' : ∀ l, e.stmt ≠ .label l := fun l hl' => hl ⟨l, hl'⟩
    rw [Declarations.labelSymbols_of_not_label hl']
    refine ⟨?_, List.not_mem_nil⟩
    by_cases hv : ∃ v, e.stmt = .equ v
    · obtain ⟨v, hv⟩ := hv
      have hcontent := he v hv
      obtain ⟨loc, stmt⟩ := e
      cases hv
      exact bind_unresolved (s := { s with scopes := _ }) hcontent h hw
    · have hev : Evaluates e := ⟨hl', fun v hv' => hv ⟨v, hv'⟩⟩
      rw [← s.settled_step hev] at h
      exact (s.step_settles hev).get?_of_unresolved h hw

theorem thread_unresolved {s : State} (hn : ∀ e ∈ es, Declarations.Named e)
    (hes : ∀ e ∈ es, ∀ v, e.stmt = .equ v → v.content ≠ .unresolved)
    (h : (Program.thread step s es).2.table.get? q = some w) (hw : w.content = .unresolved) :
    s.table.get? q = some w ∧ q ∉ Declarations.labelSymbols es := by
  induction es generalizing s with
  | nil => exact ⟨h, List.not_mem_nil⟩
  | cons e es ih =>
    obtain ⟨h, hrest⟩ := ih (fun a ha => hn a (List.mem_cons_of_mem e ha))
      (fun a ha => hes a (List.mem_cons_of_mem e ha)) h
    obtain ⟨h, hhere⟩ := step_unresolved (hn e List.mem_cons_self) (hes e List.mem_cons_self) h hw
    rw [Declarations.labelSymbols_cons, List.mem_append, not_or]
    exact ⟨h, hhere, hrest⟩

end Layout.State

/-- After layout only parameters without an argument have no value. -/
theorem Layout.unresolved_assign (hes : ∀ e ∈ Program.outside es, e.stmt.Legible)
    (h : (assign (Declarations.collect es).program (Declarations.collect es).table).table.get? q =
      some w) (hw : w.content = .unresolved) :
    Declarations.Unsupplied (Program.outside (Declarations.collect es).program) q := by
  rw [assign_table] at h
  obtain ⟨h, hq⟩ := State.thread_unresolved (fun _ => Declarations.named_collect)
    (fun _ he _ => Declarations.equ_collect hes he) h hw
  rcases Declarations.unresolved_collect hes h hw with hl | hu
  · exact (hq hl).elim
  · exact hu

theorem Program.mem_thread_of_call {f : σ → Element → Statement × σ}
    (hf : ∀ s e, Alike e.stmt (f s e).1) (he : ⟨loc, .call c⟩ ∈ es) (s : σ) :
    ⟨loc, .call c⟩ ∈ (thread f s es).1 := by
  obtain ⟨pre, post, rfl⟩ := List.append_of_mem he
  have ha := hf (thread f s pre).2 ⟨loc, .call c⟩
  rw [thread_middle]
  generalize (f (thread f s pre).2 ⟨loc, .call c⟩).1 = stmt at ha ⊢
  cases ha
  exact List.mem_append_right _ List.mem_cons_self

theorem Declarations.Unsupplied.thread {f : σ → Element → Statement × σ}
    (h : Unsupplied es q) (hf : ∀ s e, Program.Alike e.stmt (f s e).1) (s : σ) :
    Unsupplied (Program.thread f s es).1 q := by
  obtain ⟨loc, c, i, p, hc, hrest⟩ := h
  exact ⟨loc, c, i, p, Program.mem_thread_of_call hf hc s, hrest⟩

namespace Assembly

theorem mem_diagnostics_of_evaluate (h : d ∈ (layout es passes).table.evaluate.2) :
    d ∈ (assemble es passes).diagnostics := by
  simp only [assemble, List.mem_append]
  exact .inl (.inl (.inr h))

theorem mem_diagnostics_of_patch
    (h : d ∈ (Patch.patch (layout es passes).program
      (layout es passes).table.evaluate.1).diagnostics) :
    d ∈ (assemble es passes).diagnostics := by
  simp only [assemble, List.mem_append]
  exact .inl (.inr h)

section
variable {es : List Element} {passes : Int}

theorem accounted_program (hes : Encodable (es.map Element.stmt))
    (he : e ∈ Program.outside (assemble es passes).program) (ht : e.stmt = .bytes t) :
    Accounted e.loc t.slots (assemble es passes).diagnostics := by
  rw [assemble_program] at he
  have hpaired : ∀ a ∈ Program.outside (layout es passes).program, ∀ t, a.stmt = .bytes t →
      Paired t.slots := fun a ha t ht =>
    Layout.paired_assign (fun b hb t ht => Declarations.paired_collect
      (fun c hc => Macro.paired_expandAll hes _ hc) hb ht) _ ha ht
  rcases Patch.accounted_patch hpaired _ he ht with h | ⟨d, hd, ho⟩
  · exact .inl h
  · exact .inr ⟨d, mem_diagnostics_of_patch hd, ho⟩

theorem settles_layout (es : List Element) (passes : Int) :
    (layout es passes).table.evaluate.1.Settles (assemble es passes).table := by
  rw [assemble_table, Patch.patch_table]
  exact (Patch.State.memo_through _ _).settles

theorem reported_of_deferred (hv : (assemble es passes).table.get? q = some v)
    (hd : v.isDeferred = true) :
    ∃ d ∈ (assemble es passes).diagnostics, d.category = .resolution := by
  have hv' := (settles_layout es passes).get?_of_deferred hv hd
  obtain ⟨d, hd, hc⟩ := SymbolTable.reported_of_deferred hv' hd
  exact ⟨d, mem_diagnostics_of_evaluate hd, hc⟩

theorem unsupplied_of_unresolved (hes : Legible (es.map Element.stmt))
    (hv : (assemble es passes).table.get? q = some v) (hu : v.content = .unresolved) :
    Declarations.Unsupplied (Program.outside (assemble es passes).program) q := by
  have hlayout := (SymbolTable.settles_evaluate _).get?_of_unresolved
    ((settles_layout es passes).get?_of_unresolved hv hu) hu
  have hcollected := Layout.unresolved_assign
    (fun e he => Macro.legible_expandAll hes (passLimit passes) he) hlayout hu
  rw [assemble_program, Patch.outside_patch, layout, Layout.outside_assign]
  exact (hcollected.thread Layout.State.step_alike _).thread Patch.State.step_alike _

end

/-- Every hole in the result of an assembly is reported. A template outside macro definitions with a
slot that is no byte has a problem of resolution or encoding at its location, a symbol that is still
deferred comes with a problem of resolution, and a symbol that still has no value is a parameter for
which its call has no argument. So without problems all slots are bytes. -/
theorem holes_reported (file : String) (lines : List String) (passes : Int) :
    let a := assemble (Source.elementsOfLines file lines).1 passes
    (∀ loc t slot, ⟨loc, .bytes t⟩ ∈ Program.outside a.program → slot ∈ t.slots →
      (∀ b, slot ≠ .byte b) → ∃ d ∈ a.diagnostics, d.Opens loc) ∧
    (∀ q v, a.table.get? q = some v → v.isDeferred = true →
      ∃ d ∈ a.diagnostics, d.category = .resolution) ∧
    (∀ q v, a.table.get? q = some v → v.content = .unresolved →
      ∃ loc c i p, ⟨loc, .call c⟩ ∈ Program.outside a.program ∧ c.expanded = true ∧
        c.params[i]? = some p ∧ c.args.length ≤ i ∧ q = c.scope ++ p) ∧
    (a.diagnostics = [] → ∀ loc t, ⟨loc, .bytes t⟩ ∈ Program.outside a.program →
      t.slots = t.data.map .byte) := by
  intro a
  have haccounted {loc : Location} {t : Template}
      (h : ⟨loc, .bytes t⟩ ∈ Program.outside a.program) : Accounted loc t.slots a.diagnostics :=
    accounted_program (Source.elementsOfLines_encodable file lines) h rfl
  refine ⟨fun loc t slot ht hs hne => ?_, fun q v => reported_of_deferred,
    fun q v => unsupplied_of_unresolved (Source.elementsOfLines_legible file lines),
    fun hq loc t ht => ?_⟩
  · rcases haccounted ht with hbytes | hd
    · obtain ⟨b, hb⟩ := hbytes slot hs
      exact (hne b hb).elim
    · exact hd
  · have h := haccounted ht
    rw [hq] at h
    exact h.eq_bytes

end Assembly
end Z80Asm
