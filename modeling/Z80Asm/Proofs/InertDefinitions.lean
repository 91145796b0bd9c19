import Z80Asm.Proofs.Extraction
import Z80Asm.Proofs.Holes
import Z80Asm.Proofs.RecursiveExpansion

/-! Macro definitions are inert. Passes fill in fields of the elements outside of definitions and
insert copies behind calls; everything else stays as it is and where it is. -/

namespace Z80Asm
set_option autoImplicit true

/-- The slots with bytes in the place of some operands. -/
inductive Completes : List Slot → List Slot → Prop where
  | nil : Completes [] []
  | keep (slot : Slot) : Completes rest rest' → Completes (slot :: rest) (slot :: rest')
  | byte (bs : List UInt8) : rest.head?.any Slot.isHigh = false → Completes rest rest' →
      Completes (.expr v :: rest) (bs.map .byte ++ rest')
  | word (low high : UInt8) : Completes rest rest' →
      Completes (.expr v :: .high :: rest) (.byte low :: .byte high :: rest')
  | relative (b : UInt8) : Completes rest rest' →
      Completes (.relative v :: rest) (.byte b :: rest')

namespace Completes

theorem of_byte (h : Completes (.byte b :: slots) out) :
    ∃ out', out = .byte b :: out' ∧ Completes slots out' := by
  cases h with
  | keep _ h => exact ⟨_, rfl, h⟩

theorem of_bytes {bs : List UInt8} (h : Completes (bs.map .byte ++ slots) out) :
    ∃ out', out = bs.map .byte ++ out' ∧ Completes slots out' := by
  induction bs generalizing out with
  | nil => exact ⟨out, rfl, h⟩
  | cons b bs ih =>
    obtain ⟨_, rfl, hrest⟩ := of_byte h
    obtain ⟨out', rfl, hout⟩ := ih hrest
    exact ⟨out', rfl, hout⟩

theorem of_high_right (h : Completes slots (.high :: out)) :
    ∃ rest, slots = .high :: rest ∧ Completes rest out := by
  generalize ho : Slot.high :: out = slots' at h
  induction h with
  | nil => cases ho
  | keep slot h =>
    obtain ⟨rfl, rfl⟩ := List.cons.inj ho
    exact ⟨_, rfl, h⟩
  | byte bs hh _ ih =>
    cases bs with
    | nil =>
      obtain ⟨rest, rfl, -⟩ := ih ho
      cases hh
    | cons => cases ho
  | word => cases ho
  | relative => cases ho

theorem not_high (h : Completes slots out) (hh : out.head?.any Slot.isHigh = false) :
    slots.head?.any Slot.isHigh = false := by
  cases h with
  | keep => exact hh
  | _ => rfl

theorem trans (h : Completes slots mid) (h' : Completes mid out) : Completes slots out := by
  induction h generalizing out with
  | nil => exact h'
  | keep slot h ih =>
    cases h' with
    | keep _ h' => exact .keep slot (ih h')
    | byte bs hh h' => exact .byte bs (h.not_high hh) (ih h')
    | word low high h' =>
      obtain ⟨rest, rfl, -⟩ := h.of_high_right
      obtain ⟨_, hrest, h'⟩ := (ih (.keep .high h')).of_high_right
      cases hrest
      exact .word low high h'
    | relative b h' => exact .relative b (ih h')
  | byte bs hh _ ih =>
    obtain ⟨_, rfl, hrest⟩ := of_bytes h'
    exact .byte bs hh (ih hrest)
  | word low high _ ih =>
    obtain ⟨_, rfl, hhigh⟩ := of_byte h'
    obtain ⟨_, rfl, hrest⟩ := of_byte hhigh
    exact .word low high (ih hrest)
  | relative b _ ih =>
    obtain ⟨_, rfl, hrest⟩ := of_byte h'
    exact .relative b (ih hrest)

end Completes

/-- The statement with fields that passes have filled in: the symbol of a label, scopes, the note
that a call has been reported, and the operands and the place of a template. -/
inductive Statement.Fills : Statement → Statement → Prop where
  | refl (stmt : Statement) : Fills stmt stmt
  | label (l : Label) (symbol : String) : Fills (.label l) (.label { l with symbol })
  | block (scope scope' : String) : Fills (.block scope) (.block scope')
  | endBlock (scope scope' : String) : Fills (.endBlock scope) (.endBlock scope')
  | call (c : MacroCall) (scope : String) (reported : Bool) :
      Fills (.call c) (.call { c with scope, reported })
  | endCall (name scope scope' : String) : Fills (.endCall name scope) (.endCall name scope')
  | bytes {t t' : Template} : Completes t.slots t'.slots → Fills (.bytes t) (.bytes t')

theorem Statement.Fills.trans (h : Fills stmt stmt') (h' : Fills stmt' stmt'') :
    Fills stmt stmt'' := by
  cases h with
  | refl => exact h'
  | label l =>
    cases h' with
    | refl => exact .label l _
    | label => exact .label l _
  | block =>
    cases h' with
    | refl => exact .block _ _
    | block => exact .block _ _
  | endBlock =>
    cases h' with
    | refl => exact .endBlock _ _
    | endBlock => exact .endBlock _ _
  | call c =>
    cases h' with
    | refl => exact .call c _ _
    | call => exact .call c _ _
  | endCall =>
    cases h' with
    | refl => exact .endCall _ _ _
    | endCall => exact .endCall _ _ _
  | bytes h =>
    cases h' with
    | refl => exact .bytes h
    | bytes h' => exact .bytes (h.trans h')

theorem Statement.Fills.isMark_eq (h : Fills stmt stmt') :
    Program.isMark stmt' = Program.isMark stmt := by
  cases h <;> rfl

structure Element.Fills (e e' : Element) : Prop where
  loc : e'.loc = e.loc
  stmt : e.stmt.Fills e'.stmt

theorem Element.Fills.refl (e : Element) : e.Fills e := ⟨rfl, .refl _⟩

theorem Element.Fills.trans (h : Element.Fills e e') (h' : Element.Fills e' e'') : e.Fills e'' :=
  ⟨h'.loc.trans h.loc, h.stmt.trans h'.stmt⟩

theorem Element.Fills.inDefinition_eq (h : Element.Fills e e') (depth : Nat) :
    Program.inDefinition depth e'.stmt = Program.inDefinition depth e.stmt := by
  rw [Program.inDefinition_eq, Program.inDefinition_eq, h.stmt.isMark_eq]

theorem Element.Fills.of_endCall {loc : Location} {name scope : String}
    (h : Element.Fills ⟨loc, .endCall name scope⟩ e') :
    ∃ scope', e' = ⟨loc, .endCall name scope'⟩ := by
  obtain ⟨loc', stmt⟩ := e'
  obtain ⟨hloc, hstmt⟩ := h
  cases hloc
  cases hstmt with
  | refl => exact ⟨scope, rfl⟩
  | endCall _ _ scope' => exact ⟨scope', rfl⟩

namespace Program

def insideFrom (depth : Nat) : List Element → List Element
  | [] => []
  | e :: es =>
    if inDefinition depth e.stmt then e :: insideFrom (depthAfter depth e.stmt) es
    else insideFrom depth es

def inside (es : List Element) : List Element := insideFrom 0 es

inductive Filled : Nat → List Element → List Element → Prop where
  | nil : Filled depth [] []
  | inert : inDefinition depth e.stmt = true → Filled (depthAfter depth e.stmt) es es' →
      Filled depth (e :: es) (e :: es')
  | filled : inDefinition depth e.stmt = false → e.Fills e' → Filled depth es es' →
      Filled depth (e :: es) (e' :: es')

theorem inDefinition_of_unmarked (h : isMark stmt = false) : inDefinition 0 stmt = false := by
  rw [inDefinition_eq, h]
  rfl

theorem insideFrom_append {here : List Element} (h : ∀ e ∈ here, isMark e.stmt = false)
    (es : List Element) : insideFrom 0 (here ++ es) = insideFrom 0 es := by
  induction here with
  | nil => rfl
  | cons e here ih =>
    rw [List.cons_append, insideFrom, inDefinition_of_unmarked (h e List.mem_cons_self)]
    exact ih fun a ha => h a (List.mem_cons_of_mem e ha)

theorem isMark_of_mem_outsideFrom (h : e ∈ outsideFrom depth es) : isMark e.stmt = false := by
  induction es generalizing depth with
  | nil => cases h
  | cons a es ih =>
    rw [outsideFrom] at h
    split at h
    · exact ih h
    · rename_i hd
      rcases List.mem_cons.1 h with rfl | h
      · exact (of_not_inDefinition hd).2
      · exact ih h

theorem outside_outside (es : List Element) : outside (outside es) = outside es :=
  outside_of_unmarked fun _ => isMark_of_mem_outsideFrom

theorem templates_outside (es : List Element) : templates (outside es) = templates es := by
  rw [templates_eq, templates_eq, outside_outside]

theorem filled_updateFrom {f : σ → Element → Statement × σ}
    (hf : ∀ s (e : Element), e.stmt.Fills (f s e).1) (depth : Nat) (s : σ) (es : List Element) :
    Filled depth es
      (walkFrom (fun s e => ([{ e with stmt := (f s e).1 }], (f s e).2)) depth s es).1 := by
  induction es generalizing depth s with
  | nil => exact .nil
  | cons e es ih =>
    rw [walkFrom]
    split
    · rename_i hd
      exact .inert hd (ih _ s)
    · rename_i hd
      exact .filled (Bool.eq_false_of_not_eq_true hd) ⟨rfl, hf s e⟩ (ih depth _)

theorem filled_update {f : σ → Element → Statement × σ}
    (hf : ∀ s (e : Element), e.stmt.Fills (f s e).1) (s : σ) (es : List Element) :
    Filled 0 es (update f s es).1 :=
  filled_updateFrom hf 0 s es

theorem Filled.prepend {here here' : List Element} (h : ∀ e ∈ here, isMark e.stmt = false)
    (hf : List.Forall₂ Element.Fills here here') (hes : Filled 0 es es') :
    Filled 0 (here ++ es) (here' ++ es') := by
  induction hf with
  | nil => exact hes
  | cons he _ ih =>
    exact .filled (inDefinition_of_unmarked (h _ List.mem_cons_self)) he
      (ih fun a ha => h a (List.mem_cons_of_mem _ ha))

theorem Filled.of_append {here : List Element} (h : ∀ e ∈ here, isMark e.stmt = false)
    (hf : Filled 0 (here ++ es) out) :
    ∃ here' es', out = here' ++ es' ∧ Filled 0 here here' ∧ Filled 0 es es' := by
  induction here generalizing out with
  | nil => exact ⟨[], out, rfl, .nil, hf⟩
  | cons e here ih =>
    have hd := inDefinition_of_unmarked (h e List.mem_cons_self)
    cases hf with
    | inert hd' => cases hd.symm.trans hd'
    | filled _ he hf =>
      obtain ⟨here', es', rfl, hhere, hes⟩ := ih (fun a ha => h a (List.mem_cons_of_mem e ha)) hf
      exact ⟨_ :: here', es', rfl, .filled hd he hhere, hes⟩

theorem filled_spliceFrom {f g : Element → List Element} (hf : Tame f)
    (h : ∀ e, isMark e.stmt = false → List.Forall₂ Element.Fills (f e) (g e)) (depth : Nat)
    (es : List Element) : Filled depth (spliceFrom f depth es) (spliceFrom g depth es) := by
  induction es generalizing depth with
  | nil => exact .nil
  | cons e es ih =>
    rw [spliceFrom_cons, spliceFrom_cons]
    split
    · rename_i hd
      exact .inert hd (ih _)
    · rename_i hd
      obtain ⟨rfl, hm⟩ := of_not_inDefinition hd
      exact .prepend (hf e hm) (h e hm) (ih 0)

end Program

namespace Macro
open Program

/-- `out` is the program `es` after expansion, with fields filled in outside of macro definitions,
and `kept` is what is left of it without the copies that have been inserted. A copy is that of the
body of a macro, and stands with an end behind a call that has been marked as expanded. -/
inductive Spliced (t : MacroTable) : Nat → (es kept out : List Element) → Prop where
  | nil : Spliced t depth [] [] []
  | inert : inDefinition depth e.stmt = true →
      Spliced t (depthAfter depth e.stmt) es kept out →
      Spliced t depth (e :: es) (e :: kept) (e :: out)
  | stays : inDefinition depth e.stmt = false → e.Fills e' → Spliced t depth es kept out →
      Spliced t depth (e :: es) (e' :: kept) (e' :: out)
  | called : inDefinition depth e.stmt = false → Awaits e c → t.find? c.name = some m →
      Element.Fills ⟨e.loc, .call { c with expanded := true, params := m.params }⟩ e' →
      Spliced t 0 m.body kept' copy → Spliced t depth es kept out →
      Spliced t depth (e :: es) (e' :: kept)
        (e' :: (copy ++ ⟨e.loc, .endCall c.name scope⟩ :: out))

namespace Spliced
variable {t : MacroTable}

theorem sublist (h : Spliced t depth es kept out) : kept.Sublist out := by
  induction h with
  | nil => exact .slnil
  | inert _ _ ih => exact ih.cons_cons _
  | stays _ _ _ ih => exact ih.cons_cons _
  | called _ _ _ _ _ _ _ ih =>
    apply List.Sublist.cons_cons
    exact (ih.trans (List.sublist_cons_self _ _)).trans (List.sublist_append_right _ _)

theorem unmarked (ht : Plain t) (h : Spliced t depth es kept out)
    (hes : ∀ e ∈ es, isMark e.stmt = false) : ∀ e ∈ out, isMark e.stmt = false := by
  induction h with
  | nil => exact hes
  | inert _ _ ih =>
    rw [List.forall_mem_cons] at hes ⊢
    exact ⟨hes.1, ih hes.2⟩
  | stays _ hf _ ih =>
    rw [List.forall_mem_cons] at hes ⊢
    exact ⟨hf.stmt.isMark_eq.trans hes.1, ih hes.2⟩
  | called _ _ hm hf _ _ ihcopy ih =>
    have hcopy := ihcopy (ht _ (mem_of_find? hm))
    rw [List.forall_mem_cons] at hes ⊢
    rw [List.forall_mem_append, List.forall_mem_cons]
    exact ⟨hf.stmt.isMark_eq, hcopy, rfl, ih hes.2⟩

/-- Copies have no part in definitions. -/
theorem insideFrom_eq (ht : Plain t) (h : Spliced t depth es kept out) :
    insideFrom depth out = insideFrom depth es := by
  induction h with
  | nil => rfl
  | inert hd _ ih => rw [insideFrom, insideFrom, if_pos hd, if_pos hd, ih]
  | stays hd hf _ ih =>
    rw [insideFrom, insideFrom, hf.inDefinition_eq, hd]
    exact ih
  | called hd hc hm hf hcopy _ _ ih =>
    obtain ⟨rfl, -⟩ := of_not_inDefinition (Bool.eq_false_iff.1 hd)
    rw [insideFrom, insideFrom, hf.inDefinition_eq, hd, if_neg Bool.false_ne_true]
    rw [insideFrom_append (hcopy.unmarked ht (ht _ (mem_of_find? hm)))]
    exact ih

theorem fill (ht : Plain t) (h : Spliced t depth es kept out) (hf : Filled depth out out') :
    ∃ kept', Spliced t depth es kept' out' := by
  induction h generalizing out' with
  | nil =>
    cases hf
    exact ⟨[], .nil⟩
  | inert hd _ ih =>
    cases hf with
    | inert _ hf =>
      obtain ⟨kept', h⟩ := ih hf
      exact ⟨_, .inert hd h⟩
    | filled hd' => cases hd.symm.trans hd'
  | stays hd he _ ih =>
    cases hf with
    | inert hd' =>
      rw [he.inDefinition_eq] at hd'
      cases hd.symm.trans hd'
    | filled _ he' hf =>
      obtain ⟨kept', h⟩ := ih hf
      exact ⟨_, .stays hd (he.trans he') h⟩
  | called hd hc hm he hcopy _ ihcopy ih =>
    obtain ⟨rfl, -⟩ := of_not_inDefinition (Bool.eq_false_iff.1 hd)
    cases hf with
    | inert hd' =>
      rw [he.inDefinition_eq] at hd'
      cases hd'
    | filled _ he' hf =>
      obtain ⟨copy', rest, rfl, hcopy', hrest⟩ :=
        hf.of_append (hcopy.unmarked ht (ht _ (mem_of_find? hm)))
      obtain ⟨_, hbody⟩ := ihcopy hcopy'
      cases hrest with
      | inert hd' => cases hd'
      | filled _ hend hrest =>
        obtain ⟨kept', h⟩ := ih hrest
        obtain ⟨scope', rfl⟩ := hend.of_endCall
        exact ⟨_, .called hd hc hm (he.trans he') hbody h⟩

end Spliced

theorem Spliced.refl (t : MacroTable) (depth : Nat) (es : List Element) :
    Spliced t depth es es es := by
  induction es generalizing depth with
  | nil => exact .nil
  | cons e es ih =>
    cases hd : inDefinition depth e.stmt with
    | true => exact .inert hd (ih _)
    | false => exact .stays hd (.refl e) (ih depth)

theorem spliced_inline (t : MacroTable) (n depth : Nat) (es : List Element) :
    ∃ kept, Spliced t depth es kept (spliceFrom (inlineElement t n) depth es) := by
  induction n generalizing depth es with
  | zero =>
    have hsame : spliceFrom (inlineElement t 0) depth es = es := spliceFrom_eq_self fun _ _ => rfl
    rw [hsame]
    exact ⟨es, .refl t depth es⟩
  | succ n ihn =>
    induction es generalizing depth with
    | nil => exact ⟨[], .nil⟩
    | cons e es ih =>
      rw [spliceFrom_cons]
      split
      · rename_i hd
        obtain ⟨kept, h⟩ := ih (depthAfter depth e.stmt)
        exact ⟨e :: kept, .inert hd h⟩
      · rename_i hd
        have hd := Bool.eq_false_of_not_eq_true hd
        obtain ⟨kept, h⟩ := ih depth
        rw [inlineElement]
        rcases expandable?_cases t e with ⟨c, m, hc, hm, hx⟩ | ⟨c, -, -, hx⟩ | ⟨-, hx⟩
        · obtain ⟨_, hcopy⟩ := ihn 0 m.body
          rw [hx]
          dsimp only
          rw [List.cons_append, List.append_assoc]
          exact ⟨_, .called hd hc hm (.refl _) hcopy h⟩
        · rw [hx]
          exact ⟨_, .stays hd (.refl e) h⟩
        · rw [hx]
          exact ⟨_, .stays hd (.refl e) h⟩

theorem UpToNote.fills (h : UpToNote e e') : e.Fills e' := by
  rcases h with rfl | ⟨c, hc, rfl⟩
  · exact .refl e'
  · refine ⟨rfl, ?_⟩
    rw [hc.1]
    exact .call c c.scope true

theorem filled_expandAll (ht : Plain t) (limit : Nat) (es : List Element) :
    Filled 0 (inline t limit es) (expandAll t limit es).1 := by
  rw [expandAll_fst ht]
  refine filled_spliceFrom (tame_inlineElement ht limit) (fun e _ => ?_) 0 es
  rw [List.forall₂_map_right_iff]
  exact (inlineElement_inlined ht limit e).imp fun _ _ h => (h.upToNote limit).fills

theorem Extraction.foldl_insideFrom {s : Extraction} {n : Nat} (hs : s.depth = n)
    (es : List Element) :
    (insideFrom n es).foldl Extraction.step s = es.foldl Extraction.step s := by
  induction es generalizing s n with
  | nil => rfl
  | cons e es ih =>
    rw [insideFrom]
    split
    · rw [List.foldl_cons, List.foldl_cons, ih]
      rw [s.depth_step, hs]
    · rename_i hd
      obtain ⟨rfl, hm⟩ := of_not_inDefinition hd
      have hstep : [e].foldl Extraction.step s = s :=
        foldl_unmarked hs fun a ha => List.mem_singleton.1 ha ▸ hm
      rw [ih hs, List.foldl_cons]
      exact congrArg (es.foldl Extraction.step) hstep.symm

theorem extract_congr (h : inside es = inside es') : extract es = extract es' := by
  have hfold (es : List Element) : (inside es).foldl Extraction.step {} =
      es.foldl Extraction.step {} :=
    Extraction.foldl_insideFrom rfl es
  unfold extract
  rw [← hfold es, h, hfold]

/-- The definition of the macro stands in the program, and in no other definition. -/
def Stands (m : Macro) (es : List Element) : Prop :=
  ∃ before close behind, depthBehind 0 before = 0 ∧
    es = before ++ ⟨m.loc, .macroDef m.name m.params⟩ ::
      (m.body ++ ⟨close, .endMacro⟩ :: behind)

theorem stands_of_mem_extract (h : m ∈ (extract es).1) : Stands m es := by
  obtain ⟨k, n, hcomplete⟩ := exists_complete h
  obtain ⟨close, hclose⟩ := hcomplete.close
  refine ⟨es.take k, close, es.drop (n + 1), hcomplete.opened.outermost, ?_⟩
  have hfront : es.take n = es.take k ++ ⟨m.loc, .macroDef m.name m.params⟩ :: m.body := by
    have hheader : (es.take n)[k]? = some ⟨m.loc, .macroDef m.name m.params⟩ :=
      (List.getElem?_take_of_lt hcomplete.opened.lt).trans hcomplete.header
    obtain ⟨hk, hk'⟩ := List.getElem?_eq_some_iff.1 hheader
    have hsplit := (List.take_append_drop k (es.take n)).symm
    rw [List.take_take, Nat.min_eq_left (Nat.le_of_lt hcomplete.opened.lt),
      List.drop_eq_getElem_cons hk, hk'] at hsplit
    rw [hcomplete.body]
    exact hsplit
  obtain ⟨hn, hn'⟩ := List.getElem?_eq_some_iff.1 hclose
  have hwhole := (List.take_append_drop n es).symm
  rw [hfront, List.drop_eq_getElem_cons hn, hn', List.append_assoc] at hwhole
  exact hwhole

end Macro

/-! Each pass fills in fields only. -/

theorem Declarations.State.step_fills (s : State) (e : Element) : e.stmt.Fills (s.step e).1 := by
  obtain ⟨loc, stmt⟩ := e
  cases stmt with
  | label l => exact .label l _
  | block => exact .block _ _
  | endBlock => exact .endBlock _ _
  | endCall => exact .endCall _ _ _
  | call c =>
    unfold step
    dsimp only
    split
    · exact .call c _ c.reported
    · exact .refl _
  | _ => exact .refl _

theorem Layout.completes_reserved (value : Value → Option Datum) (slots : List Slot) :
    Completes slots (reserved value slots) := by
  induction slots with
  | nil => exact .nil
  | cons slot rest ih =>
    cases slot with
    | expr v =>
      cases hh : rest.head?.any Slot.isHigh with
      | true =>
        rw [reserved, hh]
        exact .keep _ ih
      | false =>
        rcases reserved_expr hh value v with he | ⟨s, -, he⟩
        · rw [he]
          exact .keep _ ih
        · rw [he]
          exact .byte (Text.bytes s) hh ih
    | _ => exact .keep _ ih

theorem Layout.State.step_fills (s : State) (e : Element) : e.stmt.Fills (s.step e).1 := by
  have halike := s.step_alike e
  obtain ⟨loc, stmt⟩ := e
  cases stmt with
  | label l => exact .label l _
  | bytes t =>
    rw [step_bytes]
    refine .bytes ?_
    rw [slots_placeTemplate]
    exact completes_reserved _ _
  | _ =>
    generalize (s.step _).1 = stmt at halike ⊢
    cases halike
    exact .refl _

namespace Patch.State

theorem patchByte_fst (s : State) (site : Site) (v : Value) :
    (s.patchByte site v).1 = [.expr v] ∨
      ∃ bs : List UInt8, (s.patchByte site v).1 = bs.map .byte := by
  unfold patchByte
  split
  · exact .inl rfl
  · exact .inr ⟨[_], rfl⟩
  · split
    · exact .inr ⟨[_], rfl⟩
    · split
      · exact .inl rfl
      · exact .inr ⟨_, rfl⟩

theorem patchWord_fst (s : State) (site : Site) (v : Value) :
    (s.patchWord site v).1 = [.expr v, .high] ∨
      ∃ low high, (s.patchWord site v).1 = [.byte low, .byte high] := by
  unfold patchWord
  split
  · exact .inl rfl
  · split
    · exact .inr ⟨_, _, rfl⟩
    · exact .inl rfl

theorem patchRelative_fst (s : State) (site : Site) (length : Nat) (v : Value) :
    (s.patchRelative site length v).1 = .relative v ∨
      ∃ b, (s.patchRelative site length v).1 = .byte b := by
  unfold patchRelative
  dsimp only
  split
  · exact .inl rfl
  · split
    · exact .inl rfl
    · exact .inr ⟨_, rfl⟩

theorem completes_patchSlots (s : State) (site : Site) (done : Array Slot) (slots : List Slot) :
    ∃ out, (s.patchSlots site done slots).1 = done.toList ++ out ∧ Completes slots out := by
  fun_induction patchSlots s site done slots with
  | case1 s done => exact ⟨[], (List.append_nil _).symm, .nil⟩
  | case2 s done v rest slots s' hr ih =>
    obtain ⟨out, ho, h⟩ := ih
    refine ⟨slots ++ out, by rw [ho, Array.toList_append, List.append_assoc], ?_⟩
    have hword := s.patchWord_fst site v
    rw [hr] at hword
    rcases hword with rfl | ⟨low, high, rfl⟩
    · exact .keep _ (.keep _ h)
    · exact .word low high h
  | case3 s done v rest hh slots s' hr ih =>
    obtain ⟨out, ho, h⟩ := ih
    refine ⟨slots ++ out, by rw [ho, Array.toList_append, List.append_assoc], ?_⟩
    have hbyte := s.patchByte_fst site v
    rw [hr] at hbyte
    rcases hbyte with rfl | ⟨bs, rfl⟩
    · exact .keep _ h
    · refine .byte bs ?_ h
      cases rest with
      | nil => rfl
      | cons slot rest =>
        cases slot with
        | high => exact (hh rest rfl).elim
        | _ => rfl
  | case4 s done v rest slot s' hr ih =>
    obtain ⟨out, ho, h⟩ := ih
    refine ⟨slot :: out, by rw [ho, Array.toList_push, List.append_assoc]; rfl, ?_⟩
    have hrelative := s.patchRelative_fst site (done.size + rest.length + 1) v
    rw [hr] at hrelative
    rcases hrelative with rfl | ⟨b, rfl⟩
    · exact .keep _ h
    · exact .relative b h
  | case5 s done slot rest _ _ _ ih =>
    obtain ⟨out, ho, h⟩ := ih
    exact ⟨slot :: out, by rw [ho, Array.toList_push, List.append_assoc]; rfl, .keep slot h⟩

theorem step_fills (s : State) (e : Element) : e.stmt.Fills (s.step e).1 := by
  by_cases h : ∃ t, e.stmt = .bytes t
  · obtain ⟨t, ht⟩ := h
    obtain ⟨loc, stmt⟩ := e
    cases ht
    obtain ⟨out, ho, h⟩ := completes_patchSlots s ⟨loc, t.address, t.placed⟩ #[] t.slots
    rw [step_bytes]
    refine .bytes ?_
    dsimp only
    rw [ho]
    exact h
  · rw [step_of_not_bytes s fun t ht => h ⟨t, ht⟩]
    exact .refl _

end Patch.State

def Statement.declaredSymbols : Statement → List String
  | .label l => [l.symbol]
  | .call c => if c.expanded then c.params.map (c.scope ++ ·) else []
  | _ => []

theorem Program.flatMap_thread {f : σ → Element → Statement × σ} {g : Statement → List α}
    {es : List Element} (h : ∀ s, ∀ e ∈ es, g (f s e).1 = g e.stmt) (s : σ) :
    (thread f s es).1.flatMap (g ·.stmt) = es.flatMap (g ·.stmt) := by
  induction es generalizing s with
  | nil => rfl
  | cons e es ih =>
    rw [thread, List.flatMap_cons, List.flatMap_cons, h s e List.mem_cons_self,
      ih fun s a ha => h s a (List.mem_cons_of_mem e ha)]

namespace Declarations.State

theorem declaredSymbols_step (s : State) (e : Element) :
    (s.step e).1.declaredSymbols = s.declares e := by
  obtain ⟨loc, stmt⟩ := e
  cases stmt with
  | call c =>
    unfold step declares
    dsimp only
    split
    · rename_i hc
      exact if_pos hc
    · rename_i hc
      exact if_neg hc
  | _ => rfl

theorem mem_names_thread_iff (s : State) (es : List Element) :
    q ∈ (Program.thread step s es).2.table.names ↔
      q ∈ s.table.names ∨ q ∈ (Program.thread step s es).1.flatMap (·.stmt.declaredSymbols) := by
  induction es generalizing s with
  | nil => exact (or_iff_left List.not_mem_nil).symm
  | cons e es ih =>
    rw [Program.thread, ih, mem_names_step, List.flatMap_cons, List.mem_append, or_assoc,
      declaredSymbols_step]

end Declarations.State

namespace Layout.State

structure Listed (s : State) (es : List Element) : Prop where
  pending : ∀ q ∈ s.pending, q ∈ s.table.names
  labels : ∀ e ∈ es, ∀ l, e.stmt = .label l → l.symbol ∈ s.table.names
  named : ∀ e ∈ es, Declarations.Named e

theorem outline_placeLabel {s : State} (hl : l.symbol ∈ s.table.names)
    (hn : (if l.symbol.isEmpty then l.name else l.symbol) = l.symbol) :
    (s.placeLabel l).2.table.outline = s.table.outline := by
  unfold placeLabel
  simp only [hn]
  split
  · exact SymbolTable.outline_set hl _
  · exact SymbolTable.outline_set hl _
  · rfl

theorem outline_bind {s : State} (h : ∀ q ∈ s.pending, q ∈ s.table.names) (v : Value)
    (loc : Location) : (s.bind v loc).table.outline = s.table.outline := by
  unfold bind
  split
  · rfl
  · exact SymbolTable.outline_foldl_set h _

theorem Listed.outline_step {s : State} (h : s.Listed (e :: es)) :
    (s.step e).2.table.outline = s.table.outline := by
  by_cases hl : ∃ l, e.stmt = .label l
  · obtain ⟨l, hl⟩ := hl
    obtain ⟨loc, stmt⟩ := e
    cases hl
    exact outline_placeLabel (h.labels _ List.mem_cons_self l rfl)
      (h.named _ List.mem_cons_self l rfl)
  · by_cases hv : ∃ v, e.stmt = .equ v
    · obtain ⟨v, hv⟩ := hv
      obtain ⟨loc, stmt⟩ := e
      cases hv
      exact outline_bind (s := { s with scopes := _ }) h.pending v loc
    · rw [step_of_not_label s fun l h => hl ⟨l, h⟩]
      exact (s.placeOther_settles e fun v h => hv ⟨v, h⟩).outline

theorem Listed.step {s : State} (h : s.Listed (e :: es)) : (s.step e).2.Listed es := by
  have hnames := SymbolTable.names_congr h.outline_step
  refine ⟨?_, fun a ha l hl => ?_, fun a ha => h.named a (List.mem_cons_of_mem e ha)⟩
  · rw [hnames]
    by_cases hl : ∃ l, e.stmt = .label l
    · obtain ⟨l, hl⟩ := hl
      have hsymbol := h.labels e List.mem_cons_self l hl
      have hpending : (s.step e).2.pending = s.pending ++ [l.symbol] := by
        have hn := h.named e List.mem_cons_self l hl
        obtain ⟨loc, stmt⟩ := e
        cases hl
        exact pending_placeLabel hn
      intro q hq
      rw [hpending] at hq
      rcases List.mem_append.1 hq with hq | hq
      · exact h.pending q hq
      · rw [List.mem_singleton.1 hq]
        exact hsymbol
    · rw [step_of_not_label s fun l h => hl ⟨l, h⟩]
      exact fun q hq => nomatch hq
  · rw [hnames]
    exact h.labels a (List.mem_cons_of_mem e ha) l hl

theorem Listed.outline_thread {s : State} (h : s.Listed es) :
    (Program.thread State.step s es).2.table.outline = s.table.outline := by
  induction es generalizing s with
  | nil => rfl
  | cons e es ih =>
    rw [Program.thread]
    exact (ih h.step).trans h.outline_step

theorem declaredSymbols_step (s : State) {e : Element} (h : Declarations.Named e) :
    (s.step e).1.declaredSymbols = e.stmt.declaredSymbols := by
  have halike := s.step_alike e
  obtain ⟨loc, stmt⟩ := e
  cases stmt with
  | label l => exact congrArg (fun symbol => [symbol]) (h l rfl)
  | _ =>
    generalize (s.step _).1 = stmt at halike ⊢
    cases halike <;> rfl

end Layout.State

theorem Patch.State.declaredSymbols_step (s : State) (e : Element) :
    (s.step e).1.declaredSymbols = e.stmt.declaredSymbols := by
  obtain ⟨loc, stmt⟩ := e
  cases stmt with
  | bytes t => rw [step_bytes]; rfl
  | _ => rfl

namespace Assembly

def declared (es : List Element) (passes : Int) : Declarations.Result :=
  Declarations.collect (Macro.expandAll (Macro.extract es).1 (passLimit passes) es).1

theorem layout_eq (es : List Element) (passes : Int) :
    layout es passes = Layout.assign (declared es passes).program (declared es passes).table := rfl

theorem spliced_program (es : List Element) (passes : Int) :
    ∃ kept, Macro.Spliced (Macro.extract es).1 0 es kept (assemble es passes).program := by
  have ht := Macro.plain_extract es
  have hcollect := Program.filled_update Declarations.State.step_fills {}
    (Macro.expandAll (Macro.extract es).1 (passLimit passes) es).1
  have hassign := Program.filled_update Layout.State.step_fills
    { table := (declared es passes).table } (declared es passes).program
  have hpatch := Program.filled_update Patch.State.step_fills
    { memo := ⟨(layout es passes).table.evaluate.1, []⟩ } (layout es passes).program
  obtain ⟨_, h⟩ := Macro.spliced_inline (Macro.extract es).1 (passLimit passes) 0 es
  obtain ⟨_, h⟩ := h.fill ht (Macro.filled_expandAll ht (passLimit passes) es)
  obtain ⟨_, h⟩ := h.fill ht hcollect
  obtain ⟨_, h⟩ := h.fill ht hassign
  rw [assemble_program]
  exact h.fill ht hpatch

theorem names_table (es : List Element) (passes : Int) :
    (assemble es passes).table.names = (declared es passes).table.names := by
  have hlisted : Layout.State.Listed { table := (declared es passes).table }
      (Program.outside (declared es passes).program) := by
    refine ⟨fun q hq => (nomatch hq), fun e he l hl => ?_, fun e => Declarations.named_collect⟩
    rw [declared, Declarations.outside_collect] at he
    rw [declared, Declarations.collect_table]
    exact Declarations.State.mem_names_of_label he hl
  have hlayout : (layout es passes).table.outline = (declared es passes).table.outline := by
    rw [layout_eq, Layout.assign_table]
    exact hlisted.outline_thread
  rw [(settles_layout es passes).names, (SymbolTable.settles_evaluate _).names,
    SymbolTable.names_congr hlayout]

theorem mem_names_table (es : List Element) (passes : Int) :
    q ∈ (assemble es passes).table.names ↔
      q ∈ (Program.outside (assemble es passes).program).flatMap (·.stmt.declaredSymbols) := by
  have hpatch : (Program.outside (assemble es passes).program).flatMap (·.stmt.declaredSymbols) =
      (Program.outside (layout es passes).program).flatMap (·.stmt.declaredSymbols) := by
    rw [assemble_program, Patch.outside_patch]
    exact Program.flatMap_thread (fun s e _ => s.declaredSymbols_step e) _
  have hlayout : (Program.outside (layout es passes).program).flatMap (·.stmt.declaredSymbols) =
      (Program.outside (declared es passes).program).flatMap (·.stmt.declaredSymbols) := by
    rw [layout_eq, Layout.outside_assign]
    exact Program.flatMap_thread
      (fun s e he => s.declaredSymbols_step (Declarations.named_collect he)) _
  rw [names_table, hpatch, hlayout, declared, Declarations.collect_table,
    Declarations.outside_collect, Declarations.State.mem_names_thread_iff]
  exact or_iff_right List.not_mem_nil

/-- Macro definitions are inert, also those that are nested, stray or never end. An assembled
program is the given one with fields filled in outside of definitions and with copies of macros
inserted behind calls. Whatever stands in a definition is as it was: it declares no symbol, it has
no part in the image or the source map, and the macros are still those that the program defines. -/
theorem definitions_inert (es : List Element) (passes : Int) :
    let a := assemble es passes
    (∃ kept, Macro.Spliced a.macros 0 es kept a.program ∧ kept.Sublist a.program) ∧
      Program.inside a.program = Program.inside es ∧
      (∀ q, q ∈ a.table.names ↔
        q ∈ (Program.outside a.program).flatMap (·.stmt.declaredSymbols)) ∧
      (a.image = Image.assemble (Program.outside a.program) ∧
        a.origin = Image.origin (Program.outside a.program) ∧
        Image.sourceMap a.program = Image.sourceMap (Program.outside a.program)) ∧
      (Macro.extract a.program).1 = a.macros ∧
      ∀ m ∈ a.macros, m.Stands es ∧ m.Stands a.program := by
  intro a
  obtain ⟨kept, hspliced⟩ := spliced_program es passes
  have hinside := hspliced.insideFrom_eq (Macro.plain_extract es)
  have hmacros : (Macro.extract a.program).1 = (Macro.extract es).1 :=
    congrArg Prod.fst (Macro.extract_congr hinside)
  have htemplates := Program.templates_outside a.program
  obtain ⟨himage, horigin⟩ := image_congr htemplates
  have hmap : Image.sourceMap (Program.outside a.program) = Image.sourceMap a.program := by
    rw [Image.sourceMap, Image.sourceMap, htemplates]
  refine ⟨⟨kept, hspliced, hspliced.sublist⟩, hinside, fun q => mem_names_table es passes,
    ⟨(image_eq es passes).trans himage.symm, (origin_eq es passes).trans horigin.symm, hmap.symm⟩,
    hmacros, fun m hm => ⟨Macro.stands_of_mem_extract hm, ?_⟩⟩
  apply Macro.stands_of_mem_extract
  rw [hmacros]
  exact hm

end Assembly
end Z80Asm
