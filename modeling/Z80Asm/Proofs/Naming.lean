import Z80Asm.Proofs.Foreknowledge
import Z80Asm.Proofs.Weakening

/-! Operands under a name. A template in which a name stands for the bytes of its value takes the
same place and the same bytes. -/

namespace Z80Asm
set_option autoImplicit true

/-- The byte that a datum is, if it is a single one. -/
def Datum.byte? : Datum → Option UInt8
  | .number n => some (Word.lowByte n)
  | .text s => if (Text.bytes s).length = 1 then (Text.bytes s).head? else none

theorem Datum.byte?_text (h : (Datum.text s).byte? = some b) : Text.bytes s = [b] := by
  rw [byte?] at h
  split at h
  · rename_i hlength
    obtain ⟨a, ha⟩ := List.length_eq_one_iff.1 hlength
    rw [ha] at h ⊢
    cases h
    rfl
  · cases h

theorem Text.length_bytes (s : String) : (bytes s).length = s.utf8ByteSize := by
  rw [bytes, Array.length_toList]
  rfl

def Value.name (x : String) : Value := .deferred x [x]

/-- In the second list the name `x` stands as an operand in some of the places where the first one
has the value `d`: as a byte, a word or a distance, and also as a text of several bytes if they are
yet to be reserved. All other operands are the same and do not mention the name. -/
inductive Names (x : String) (d : Datum) (reserves : Bool) : List Slot → List Slot → Prop where
  | nil : Names x d reserves [] []
  | byte {b : UInt8} : Names x d reserves rest rest' →
      Names x d reserves (.byte b :: rest) (.byte b :: rest')
  | expr {v : Value} : v.Avoids x → Names x d reserves rest rest' →
      Names x d reserves (.expr v :: rest) (.expr v :: rest')
  | word {v : Value} : v.Avoids x → Names x d reserves rest rest' →
      Names x d reserves (.expr v :: .high :: rest) (.expr v :: .high :: rest')
  | relative {v : Value} : v.Avoids x → Names x d reserves rest rest' →
      Names x d reserves (.relative v :: rest) (.relative v :: rest')
  | namedByte {b : UInt8} : d.byte? = some b → Names x d reserves rest rest' →
      Names x d reserves (.byte b :: rest) (.expr (.name x) :: rest')
  | namedText {s : String} : reserves = true → d = .text s → (Text.bytes s).length ≠ 1 →
      Names x d reserves rest rest' →
      Names x d reserves (Slot.ofText s ++ rest) (.expr (.name x) :: rest')
  | namedWord {n : Int64} : d.number? = some n → Names x d reserves rest rest' →
      Names x d reserves (.byte (Word.lowByte n) :: .byte (Word.highByte n) :: rest)
        (.expr (.name x) :: .high :: rest')
  | namedRelative : Names x d reserves rest rest' →
      Names x d reserves (.relative (.ofDatum d) :: rest) (.relative (.name x) :: rest')

namespace Names

theorem bytes (bs : List UInt8) (h : Names x d reserves rest rest') :
    Names x d reserves (bs.map .byte ++ rest) (bs.map .byte ++ rest') := by
  induction bs with
  | nil => exact h
  | cons b bs ih => exact ih.byte

theorem append (h : Names x d reserves slots slots') (hrest : Names x d reserves rest rest') :
    Names x d reserves (slots ++ rest) (slots' ++ rest') := by
  induction h with
  | nil => exact hrest
  | byte _ ih => exact ih.byte
  | expr hv _ ih => exact ih.expr hv
  | word hv _ ih => exact ih.word hv
  | relative hv _ ih => exact ih.relative hv
  | namedByte hb _ ih => exact ih.namedByte hb
  | namedText hr hd hs _ ih =>
    rw [List.append_assoc]
    exact ih.namedText hr hd hs
  | namedWord hn _ ih => exact ih.namedWord hn
  | namedRelative _ ih => exact ih.namedRelative

theorem not_high (h : Names x d reserves slots slots') :
    slots.head?.any Slot.isHigh = false ∧ slots'.head?.any Slot.isHigh = false := by
  induction h with
  | @namedText _ _ s _ _ _ _ ih =>
    refine ⟨?_, rfl⟩
    unfold Slot.ofText
    cases Text.bytes s with
    | nil => exact ih.1
    | cons b bs => rfl
  | _ => exact ⟨rfl, rfl⟩

theorem length_eq (h : Names x d false slots slots') : slots'.length = slots.length := by
  induction h with
  | nil => rfl
  | namedText hr => cases hr
  | byte _ ih | expr _ _ ih | relative _ _ ih | namedByte _ _ ih | namedRelative _ ih =>
    rw [List.length_cons, List.length_cons, ih]
  | word _ _ ih | namedWord _ _ ih =>
    simp only [List.length_cons, ih]

end Names

namespace Layout

theorem reserve_byte (scopes : ScopeStack) (address : Int64) (memo : Memo) (done : Array Slot)
    (b : UInt8) (rest : List Slot) :
    reserve scopes address memo done (.byte b :: rest) =
      reserve scopes address memo (done.push (.byte b)) rest := rfl

/-- An operand of one byte is kept, unless it is known to be a text of another length. -/
theorem reserve_expr (h : rest.head?.any Slot.isHigh = false)
    (hr : (Resolve.value v (scopes.scopeOf v) address).run.run memo = (r, memo'))
    (done : Array Slot) :
    reserve scopes address memo done (.expr v :: rest) =
      reserve scopes address memo'
        (done ++ ((spliced? r.toOption).elim [.expr v] Slot.ofText).toArray) rest := by
  rw [reserve, h, if_neg Bool.false_ne_true, hr]
  cases r with
  | error e => rfl
  | ok d =>
    cases d with
    | number n => rfl
    | text s =>
      dsimp only [Except.toOption, spliced?]
      split
      · rfl
      · rfl

theorem reserve_text (scopes : ScopeStack) (address : Int64) (memo : Memo) (done : Array Slot)
    (s : String) (rest : List Slot) :
    reserve scopes address memo done (Slot.ofText s ++ rest) =
      reserve scopes address memo (done ++ (Slot.ofText s).toArray) rest := by
  unfold Slot.ofText
  induction Text.bytes s generalizing done with
  | nil => rw [List.map_nil, List.nil_append, Array.append_empty]
  | cons b bs ih =>
    rw [List.map_cons, List.cons_append, reserve_byte, ih]
    congr 1
    rw [← Array.toList_inj]
    simp

end Layout

def Reserved (x : String) (d : Datum) (done done' : List Slot) (r r' : List Slot × Memo) : Prop :=
  ∃ out out', r.1 = done ++ out ∧ r'.1 = done' ++ out' ∧ Names x d false out out' ∧
    Memo.Beside x (.ofDatum d) r.2 r'.2

theorem Reserved.prepend {slots slots' : List Slot}
    (h : Reserved x d (done ++ slots) (done' ++ slots') r r')
    (hslots : ∀ out out', Names x d false out out' →
      Names x d false (slots ++ out) (slots' ++ out')) :
    Reserved x d done done' r r' := by
  obtain ⟨out, out', hout, hout', hnames, hmemo⟩ := h
  rw [List.append_assoc] at hout hout'
  exact ⟨slots ++ out, slots' ++ out', hout, hout', hslots out out' hnames, hmemo⟩

theorem ScopeStack.isPath_current {scopes : ScopeStack}
    (h : ∀ scope ∈ scopes, Scope.IsPath scope) : Scope.IsPath scopes.current := by
  cases scopes with
  | nil => exact Scope.isPath_empty
  | cons scope scopes => exact h scope List.mem_cons_self

theorem ScopeStack.isPath_scopeOf {scopes : ScopeStack}
    (h : ∀ scope ∈ scopes, Scope.IsPath scope) (hv : v.scope? = none) :
    Scope.IsPath (scopes.scopeOf v) := by
  rw [scopeOf, hv]
  exact isPath_current h

def ReservedAlike (x : String) (d : Datum) (scopes : ScopeStack) (address : Int64)
    (slots slots' : List Slot) : Prop :=
  ∀ (memo memo' : Memo) (done done' : Array Slot), Memo.Beside x (.ofDatum d) memo memo' →
    Reserved x d done.toList done'.toList (Layout.reserve scopes address memo done slots)
      (Layout.reserve scopes address memo' done' slots')

namespace ReservedAlike

section
variable {x : String} {d : Datum} {scopes : ScopeStack} {address : Int64}
  {slots slots' : List Slot}

theorem push (h : ReservedAlike x d scopes address slots slots') {slot slot' : Slot}
    (hold : ∀ memo done, Layout.reserve scopes address memo done (slot :: slots) =
      Layout.reserve scopes address memo (done.push slot) slots)
    (hnew : ∀ memo done, Layout.reserve scopes address memo done (slot' :: slots') =
      Layout.reserve scopes address memo (done.push slot') slots')
    (hnames : ∀ out out', Names x d false out out' →
      Names x d false (slot :: out) (slot' :: out')) :
    ReservedAlike x d scopes address (slot :: slots) (slot' :: slots') := by
  intro memo memo' done done' hm
  have hrest := h memo memo' (done.push slot) (done'.push slot') hm
  rw [Array.toList_push, Array.toList_push] at hrest
  rw [hold, hnew]
  exact hrest.prepend hnames

theorem expr (h : ReservedAlike x d scopes address slots slots') (hx : Scope.Unsegmented x)
    (hpaths : ∀ scope ∈ scopes, Scope.IsPath scope) (hv : v.Avoids x)
    (hnames : Names x d true slots slots') :
    ReservedAlike x d scopes address (.expr v :: slots) (.expr v :: slots') := by
  intro memo memo' done done' hm
  obtain ⟨hr, hR⟩ := Resolve.value_beside hx hv.mentions
    (ScopeStack.isPath_scopeOf hpaths hv.scope) address memo memo' hm
  generalize hrun : (Resolve.value v (scopes.scopeOf v) address).run.run memo = r at hr hR
  generalize hrun' : (Resolve.value v (scopes.scopeOf v) address).run.run memo' = r' at hr hR
  obtain ⟨r, m⟩ := r
  obtain ⟨r', m'⟩ := r'
  cases hr
  rw [Layout.reserve_expr hnames.not_high.1 hrun, Layout.reserve_expr hnames.not_high.2 hrun']
  have hrest := h m m'
    (done ++ ((Layout.spliced? r.toOption).elim [.expr v] Slot.ofText).toArray)
    (done' ++ ((Layout.spliced? r.toOption).elim [.expr v] Slot.ofText).toArray) hR
  rw [Array.toList_append, Array.toList_append, List.toList_toArray] at hrest
  refine hrest.prepend fun out out' hout => ?_
  cases Layout.spliced? r.toOption with
  | none => exact hout.expr hv
  | some text => exact hout.bytes (Text.bytes text)

/-- The name itself, whose value is a number or a text of one byte. -/
theorem namedByte (h : ReservedAlike x d scopes address slots slots')
    (hself : ∀ {m m' : Memo}, Memo.Beside x (.ofDatum d) m m' →
      (Resolve.value (.name x) (scopes.scopeOf (.name x)) address).run.run m' = (.ok d, m'))
    (hb : d.byte? = some b) (hnames : Names x d true slots slots') :
    ReservedAlike x d scopes address (.byte b :: slots) (.expr (.name x) :: slots') := by
  intro memo memo' done done' hm
  have hkept : Layout.spliced? (some d) = none := by
    cases d with
    | number n => rfl
    | text s => exact if_pos (Text.utf8ByteSize_of_bytes (Datum.byte?_text hb))
  rw [Layout.reserve_expr hnames.not_high.2 (hself hm)]
  dsimp only [Except.toOption]
  rw [hkept]
  have hrest := h memo memo' (done.push (.byte b)) (done' ++ [Slot.expr (.name x)].toArray) hm
  rw [Array.toList_push, Array.toList_append, List.toList_toArray] at hrest
  exact hrest.prepend fun _ _ h => h.namedByte hb

/-- The name itself, whose value is a text of another length. -/
theorem namedText {text : String} (h : ReservedAlike x d scopes address slots slots')
    (hself : ∀ {m m' : Memo}, Memo.Beside x (.ofDatum d) m m' →
      (Resolve.value (.name x) (scopes.scopeOf (.name x)) address).run.run m' = (.ok d, m'))
    (hd : d = .text text) (hlength : (Text.bytes text).length ≠ 1)
    (hnames : Names x d true slots slots') :
    ReservedAlike x d scopes address (Slot.ofText text ++ slots) (.expr (.name x) :: slots') := by
  intro memo memo' done done' hm
  have hspliced : Layout.spliced? (some d) = some text := by
    rw [hd, Layout.spliced?, if_neg]
    rw [← Text.length_bytes]
    exact hlength
  rw [Layout.reserve_text, Layout.reserve_expr hnames.not_high.2 (hself hm)]
  dsimp only [Except.toOption]
  rw [hspliced]
  have hrest := h memo memo' (done ++ (Slot.ofText text).toArray)
    (done' ++ (Slot.ofText text).toArray) hm
  rw [Array.toList_append, Array.toList_append, List.toList_toArray] at hrest
  exact hrest.prepend fun _ _ h => h.bytes (Text.bytes text)

end
end ReservedAlike

theorem Names.reserve (hparse : Expr.parse x = .ok (.ident x)) (hhere : x ≠ "$")
    (h : Names x d true slots slots') {scopes : ScopeStack}
    (hpaths : ∀ scope ∈ scopes, Scope.IsPath scope) (address : Int64) :
    ReservedAlike x d scopes address slots slots' := by
  have hx : Scope.Unsegmented x := Expr.parse_clean hparse x (List.mem_singleton_self x)
  have hself {m m' : Memo} (hm : Memo.Beside x (.ofDatum d) m m') :
      (Resolve.value (.name x) (scopes.scopeOf (.name x)) address).run.run m' = (.ok d, m') :=
    Resolve.value_self hparse hhere hm (ScopeStack.isPath_current hpaths) [x] address
  induction h with
  | nil =>
    exact fun _ _ done done' hm =>
      ⟨[], [], (List.append_nil _).symm, (List.append_nil _).symm, .nil, hm⟩
  | byte _ ih => exact ih.push (fun _ _ => rfl) (fun _ _ => rfl) fun _ _ h => h.byte
  | expr hv hnames ih => exact ih.expr hx hpaths hv hnames
  | @word _ _ v hv _ ih =>
    intro memo memo' done done' hm
    have hrest := ih memo memo' ((done.push (.expr v)).push .high)
      ((done'.push (.expr v)).push .high) hm
    simp only [Array.toList_push, List.append_assoc] at hrest
    exact hrest.prepend fun _ _ h => h.word hv
  | relative hv _ ih => exact ih.push (fun _ _ => rfl) (fun _ _ => rfl) fun _ _ h => h.relative hv
  | namedByte hb hnames ih => exact ih.namedByte hself hb hnames
  | namedText _ hd hlength hnames ih => exact ih.namedText hself hd hlength hnames
  | @namedWord _ _ n hn _ ih =>
    intro memo memo' done done' hm
    have hrest := ih memo memo'
      ((done.push (.byte (Word.lowByte n))).push (.byte (Word.highByte n)))
      ((done'.push (.expr (.name x))).push .high) hm
    simp only [Array.toList_push, List.append_assoc] at hrest
    exact hrest.prepend fun _ _ h => h.namedWord hn
  | namedRelative _ ih =>
    exact ih.push (fun _ _ => rfl) (fun _ _ => rfl) fun _ _ h => h.namedRelative

def Statement.binders : Statement → List String
  | .label l => [l.name]
  | .macroDef _ params => params
  | .call c => c.params
  | _ => []

def Slot.operand? : Slot → Option Value
  | .expr v | .relative v => some v
  | _ => none

def Statement.values : Statement → List Value
  | .equ v | .org v | .phase v | .align v => [v]
  | .call c => c.args
  | .bytes t => t.slots.filterMap Slot.operand?
  | _ => []

/-- The name does not occur in the statement, whose values have no scopes of their own. -/
structure Statement.Avoids (x : String) (stmt : Statement) : Prop where
  binders : ∀ n ∈ stmt.binders, Scope.Unsegmented n ∧ n ≠ x
  values : ∀ v ∈ stmt.values, v.Avoids x

/-- The second statement is the first one, or has the name `x` for the value `d` in a template. -/
inductive Statement.Named (x : String) (d : Datum) (reserves : Bool) :
    Statement → Statement → Prop where
  | bytes {t : Template} {slots : List Slot} : Names x d reserves t.slots slots →
      Named x d reserves (.bytes t) (.bytes { t with slots })
  | same {stmt : Statement} : (∀ t, stmt ≠ .bytes t) → stmt.Avoids x → Named x d reserves stmt stmt

/-- The statement opens a scope of blocks and calls, and its label has a symbol other than `x`. -/
def Statement.Declared (x : String) : Statement → Prop
  | .label l => Scope.Clear x (if l.symbol.isEmpty then l.name else l.symbol)
  | .block scope => Scope.IsPath scope
  | .call c => c.expanded = true → Scope.IsPath c.scope
  | _ => True

structure Element.Named (x : String) (d : Datum) (reserves : Bool) (e e' : Element) : Prop where
  stmt : e.stmt.Named x d reserves e'.stmt
  declared : e.stmt.Declared x

theorem ScopeStack.isPath_after {scopes : ScopeStack}
    (h : ∀ scope ∈ scopes, Scope.IsPath scope) (hs : stmt.Declared x) :
    ∀ scope ∈ scopes.after stmt, Scope.IsPath scope := by
  cases stmt with
  | block scope => exact List.forall_mem_cons.2 ⟨hs, h⟩
  | call c =>
    change ∀ scope ∈ (if c.expanded then c.scope :: scopes else scopes), Scope.IsPath scope
    split
    · rename_i hc
      exact List.forall_mem_cons.2 ⟨hs hc, h⟩
    · exact h
  | endBlock | endCall => exact fun scope hscope => h scope (List.mem_of_mem_tail hscope)
  | _ => exact h

namespace Program

/-- Two passes that keep a relation of their states give related elements for related ones. -/
theorem thread_forall₂ {f : σ → Element → Statement × σ} {g : τ → Element → Statement × τ}
    {R : σ → τ → Prop} {E E' : Element → Element → Prop}
    (hstep : ∀ s t e e', R s t → E e e' →
      E' { e with stmt := (f s e).1 } { e' with stmt := (g t e').1 } ∧ R (f s e).2 (g t e').2)
    (h : R s t) (hes : List.Forall₂ E es es') :
    List.Forall₂ E' (thread f s es).1 (thread g t es').1 ∧
      R (thread f s es).2 (thread g t es').2 := by
  induction hes generalizing s t with
  | nil => exact ⟨.nil, h⟩
  | cons he _ ih =>
    obtain ⟨hout, hnext⟩ := hstep _ _ _ _ h he
    obtain ⟨hrest, hend⟩ := ih hnext
    exact ⟨.cons hout hrest, hend⟩

end Program

namespace Layout

theorem reserve_of_no_operand (scopes : ScopeStack) (address : Int64) (memo : Memo)
    (done : Array Slot) {slots : List Slot} (h : slots.any Slot.isOperand = false) :
    reserve scopes address memo done slots = (done.toList ++ slots, memo) := by
  induction slots generalizing done with
  | nil =>
    rw [List.append_nil]
    rfl
  | cons slot rest ih =>
    rw [List.any_cons, Bool.or_eq_false_iff] at h
    have hrest := ih (done.push slot) h.2
    rw [Array.toList_push, List.append_assoc] at hrest
    cases slot with
    | expr => cases h.1
    | relative => cases h.1
    | byte b => exact hrest
    | high => exact hrest

namespace State

/-- The second state differs in the symbol `x` of value `w`, and in where problems were found. -/
structure Beside (x : String) (w : Value) (s s' : State) : Prop where
  same : s' = { s with table := s'.table, diagnostics := s'.diagnostics }
  table : s.table.Beside x w s'.table
  quiet : s'.diagnostics = [] ↔ s.diagnostics = []
  clear : ∀ q ∈ s.pending, Scope.Clear x q
  paths : ∀ scope ∈ s.scopes, Scope.IsPath scope

namespace Beside

variable {x : String} {w : Value} {s s' : State}

theorem exists_eq (h : s.Beside x w s') :
    ∃ t' ds', s' = { s with table := t', diagnostics := ds' } :=
  ⟨_, _, h.same⟩

theorem report (h : s.Beside x w s') (p p' : Problem) (loc loc' : Location) :
    (s.report p loc).Beside x w (s'.report p' loc') := by
  obtain ⟨t', ds', rfl⟩ := h.exists_eq
  have hquiet : ds' ++ [⟨p', loc'⟩] = [] ↔ s.diagnostics ++ [⟨p, loc⟩] = [] := by
    simp only [List.append_eq_nil_iff, List.cons_ne_nil, and_false]
  exact ⟨rfl, h.table, hquiet, h.clear, h.paths⟩

theorem withTable (h : s.Beside x w s') (ht : t.Beside x w t') :
    (s.withTable t).Beside x w (s'.withTable t') := by
  obtain ⟨t₁', ds', rfl⟩ := h.exists_eq
  exact ⟨rfl, ht, h.quiet, h.clear, h.paths⟩

theorem moved (h : s.Beside x w s') (address out : Int64) (overflowed : Bool) :
    State.Beside x w { s with address, out, overflowed } { s' with address, out, overflowed } := by
  obtain ⟨t', ds', rfl⟩ := h.exists_eq
  exact ⟨rfl, h.table, h.quiet, h.clear, h.paths⟩

theorem checkRange (h : s.Beside x w s') (loc loc' : Location) :
    (s.checkRange loc).Beside x w (s'.checkRange loc') := by
  obtain ⟨t', ds', rfl⟩ := h.exists_eq
  unfold State.checkRange
  dsimp only
  split
  · exact (h.moved s.address s.out true).report _ _ loc loc'
  · exact h

theorem move (h : s.Beside x w s') (stmt : Statement) (n : Int64) (loc loc' : Location) :
    (s.move stmt n loc).Beside x w (s'.move stmt n loc') := by
  obtain ⟨t', ds', rfl⟩ := h.exists_eq
  cases stmt with
  | org v => exact (h.moved n n s.overflowed).checkRange loc loc'
  | phase v => exact (h.moved n s.out s.overflowed).checkRange loc loc'
  | align v =>
    unfold State.move alignTo
    dsimp only
    split
    · exact h.report _ _ loc loc'
    · exact (h.moved _ _ s.overflowed).checkRange loc loc'
  | _ => exact h

theorem directive (h : s.Beside x w s') (hx : Scope.Unsegmented x) (hv : x ∉ v.mentions)
    (name : String) (loc loc' : Location) :
    (s'.directive name v loc').1 = (s.directive name v loc).1 ∧
      (s.directive name v loc).2.Beside x w (s'.directive name v loc').2 := by
  obtain ⟨t', ds', rfl⟩ := h.exists_eq
  obtain ⟨hr, hR⟩ := Resolve.value_beside hx hv (ScopeStack.isPath_current h.paths) s.address
    ⟨s.table, []⟩ ⟨t', []⟩ ⟨h.table, rfl⟩
  unfold State.directive
  dsimp only
  generalize (Resolve.value v s.scopes.current s.address).run.run ⟨s.table, []⟩ = r at hr hR ⊢
  generalize (Resolve.value v s.scopes.current s.address).run.run ⟨t', []⟩ = r' at hr hR ⊢
  obtain ⟨r, m⟩ := r
  obtain ⟨r', m'⟩ := r'
  cases hr
  have htable := h.withTable hR.table
  dsimp only
  cases r >>= Datum.asNumber none with
  | error e => exact ⟨rfl, htable.report _ _ loc loc'⟩
  | ok n => exact ⟨rfl, htable⟩

theorem placeLabel (h : s.Beside x w s') (hx : Scope.Unsegmented x)
    (hl : Scope.Clear x (if l.symbol.isEmpty then l.name else l.symbol)) :
    (s'.placeLabel l).1 = (s.placeLabel l).1 ∧
      (s.placeLabel l).2.Beside x w (s'.placeLabel l).2 := by
  obtain ⟨t', ds', rfl⟩ := h.exists_eq
  unfold State.placeLabel
  generalize (if l.symbol.isEmpty = true then l.name else l.symbol) = symbol at hl ⊢
  dsimp only
  have hclear : ∀ q ∈ s.pending ++ [symbol], Scope.Clear x q := by
    intro q hq
    rcases List.mem_append.1 hq with hq | hq
    · exact h.clear q hq
    · rw [List.mem_singleton.1 hq]
      exact hl
  have hget : t'.get? symbol = s.table.get? symbol := h.table.get symbol (hl.ne hx)
  have hset := h.table.set hx hl
    (Value.avoidsWithin_of_not_deferred (v := .number s.address) rfl)
  rw [hget]
  refine ⟨rfl, rfl, ?_, h.quiet, hclear, h.paths⟩
  cases s.table.get? symbol with
  | none => exact hset
  | some v =>
    obtain ⟨content, scope?, here?⟩ := v
    cases content with
    | unresolved => exact hset
    | _ => exact h.table

theorem bind (h : s.Beside x w s') (hx : Scope.Unsegmented x) (hv : v.Avoids x)
    (loc loc' : Location) : (s.bind v loc).Beside x w (s'.bind v loc') := by
  obtain ⟨t', ds', rfl⟩ := h.exists_eq
  unfold State.bind
  dsimp only
  split
  · exact h.report _ _ loc loc'
  · have hbound : (boundValue s.scopes s.address v).AvoidsWithin x := by
      intro hd
      have hdeferred : v.isDeferred = true := by
        unfold Value.isDeferred at hd ⊢
        rwa [content_boundValue] at hd
      refine ⟨?_, _, scope?_boundValue s.scopes s.address hdeferred,
        ScopeStack.isPath_scopeOf h.paths hv.scope⟩
      unfold Value.mentions
      rw [content_boundValue]
      exact hv.mentions
    exact ⟨rfl, h.table.foldl_set hx h.clear hbound, h.quiet, h.clear, h.paths⟩

theorem passed (h : s.Beside x w s') (n : Nat) (loc loc' : Location) :
    (s.passed n loc).Beside x w (s'.passed n loc') := by
  obtain ⟨t', ds', rfl⟩ := h.exists_eq
  exact (h.moved _ _ s.overflowed).checkRange loc loc'

end Beside

theorem symbol_placeLabel (s : State) (l : Label) :
    (if (s.placeLabel l).1.symbol.isEmpty then l.name else (s.placeLabel l).1.symbol) =
      if l.symbol.isEmpty then l.name else l.symbol := by
  change (if (if l.symbol.isEmpty then l.name else l.symbol).isEmpty then l.name
    else if l.symbol.isEmpty then l.name else l.symbol) = _
  by_cases h : l.symbol.isEmpty = true
  · rw [if_pos h, ite_self]
  · rw [if_neg h, if_neg h]

theorem placeTemplate_eq_reserve (s : State) (t : Template) (loc : Location) :
    s.placeTemplate t loc =
      (⟨(reserve s.scopes s.address ⟨s.table, []⟩ #[] t.slots).1, s.address, s.out, true⟩,
        ((s.withTable (reserve s.scopes s.address ⟨s.table, []⟩ #[] t.slots).2.table).passed
          (reserve s.scopes s.address ⟨s.table, []⟩ #[] t.slots).1.length loc)) := by
  unfold placeTemplate
  cases hop : t.hasOperand with
  | true => rfl
  | false =>
    rw [reserve_of_no_operand _ _ _ _ hop]
    rfl

section
variable {x : String} {d : Datum} {s s' : State}

theorem Beside.placeTemplate (hparse : Expr.parse x = .ok (.ident x)) (hhere : x ≠ "$")
    (h : s.Beside x (.ofDatum d) s') {t : Template} (hslots : Names x d true t.slots slots')
    (loc loc' : Location) :
    Statement.Named x d false (.bytes (s.placeTemplate t loc).1)
        (.bytes (s'.placeTemplate { t with slots := slots' } loc').1) ∧
      (s.placeTemplate t loc).2.Beside x (.ofDatum d)
        (s'.placeTemplate { t with slots := slots' } loc').2 := by
  obtain ⟨t', ds', rfl⟩ := h.exists_eq
  have hstart : Memo.Beside x (.ofDatum d) ⟨s.table, []⟩ ⟨t', []⟩ := ⟨h.table, rfl⟩
  obtain ⟨out, out', hout, hout', hnames, hmemo⟩ :=
    hslots.reserve hparse hhere h.paths s.address _ _ #[] #[] hstart
  rw [placeTemplate_eq_reserve, placeTemplate_eq_reserve]
  dsimp only
  rw [hout, hout']
  have hpassed := (h.withTable hmemo.table).passed out'.length loc loc'
  refine ⟨.bytes hnames, ?_⟩
  rw [List.nil_append, List.nil_append, ← hnames.length_eq]
  exact hpassed

theorem Beside.unpended (h : s.Beside x w s') :
    State.Beside x w { s with pending := [] } { s' with pending := [] } := by
  obtain ⟨t', ds', rfl⟩ := h.exists_eq
  exact ⟨rfl, h.table, h.quiet, fun q hq => (List.not_mem_nil hq).elim, h.paths⟩

theorem Beside.after (h : s.Beside x w s') {stmt : Statement} (hd : stmt.Declared x) :
    State.Beside x w { s with scopes := s.scopes.after stmt }
      { s' with scopes := s'.scopes.after stmt } := by
  obtain ⟨t', ds', rfl⟩ := h.exists_eq
  exact ⟨rfl, h.table, h.quiet, h.clear, ScopeStack.isPath_after h.paths hd⟩

theorem Beside.step_directive (h : s.Beside x (.ofDatum d) s') (hx : Scope.Unsegmented x)
    {stmt : Statement} (hdir : directive? stmt = some (name, v)) (hstmt : stmt.Avoids x)
    (hdeclared : stmt.Declared x) (loc loc' : Location) :
    Element.Named x d false ⟨loc, (s.step ⟨loc, stmt⟩).1⟩ ⟨loc', (s'.step ⟨loc', stmt⟩).1⟩ ∧
      (s.step ⟨loc, stmt⟩).2.Beside x (.ofDatum d) (s'.step ⟨loc', stmt⟩).2 := by
  have hv : x ∉ v.mentions := by
    cases stmt with
    | org | phase | align =>
      cases hdir
      exact (hstmt.values v (List.mem_singleton_self v)).mentions
    | _ => cases hdir
  have hlabel : ∀ l, stmt ≠ .label l := by
    rintro l rfl
    cases hdir
  have hbytes : ∀ t, stmt ≠ .bytes t := by
    rintro t rfl
    cases hdir
  obtain ⟨hresult, hnext⟩ := h.directive hx hv name loc loc'
  rw [step_of_not_label s hlabel, step_of_not_label s' hlabel,
    placeOther_of_directive s hdir, placeOther_of_directive s' hdir]
  refine ⟨⟨.same hbytes hstmt, hdeclared⟩, Beside.unpended ?_⟩
  dsimp only
  rw [hresult]
  cases (s.directive name v loc).1 with
  | none => exact hnext
  | some n => exact hnext.move stmt n loc loc'

theorem Beside.step_label (h : s.Beside x (.ofDatum d) s') (hx : Scope.Unsegmented x) {l : Label}
    (hl : (Statement.label l).Avoids x) (hdeclared : (Statement.label l).Declared x)
    (loc loc' : Location) :
    Element.Named x d false ⟨loc, (s.step ⟨loc, .label l⟩).1⟩
        ⟨loc', (s'.step ⟨loc', .label l⟩).1⟩ ∧
      (s.step ⟨loc, .label l⟩).2.Beside x (.ofDatum d) (s'.step ⟨loc', .label l⟩).2 := by
  obtain ⟨hlabel, hnext⟩ := h.placeLabel hx hdeclared
  refine ⟨⟨?_, ?_⟩, hnext⟩
  · change Statement.Named x d false (.label (s.placeLabel l).1) (.label (s'.placeLabel l).1)
    rw [hlabel]
    exact .same (fun t ht => by cases ht) ⟨hl.binders, hl.values⟩
  · change Scope.Clear x (if (s.placeLabel l).1.symbol.isEmpty then l.name
      else (s.placeLabel l).1.symbol)
    rw [symbol_placeLabel]
    exact hdeclared

theorem Beside.step (hparse : Expr.parse x = .ok (.ident x)) (hhere : x ≠ "$")
    (h : s.Beside x (.ofDatum d) s') {e e' : Element} (he : e.Named x d true e') :
    Element.Named x d false { e with stmt := (s.step e).1 } { e' with stmt := (s'.step e').1 } ∧
      (s.step e).2.Beside x (.ofDatum d) (s'.step e').2 := by
  have hx : Scope.Unsegmented x := Expr.parse_clean hparse x (List.mem_singleton_self x)
  obtain ⟨loc, stmt⟩ := e
  obtain ⟨loc', stmt'⟩ := e'
  obtain ⟨hstmt, hdeclared⟩ := he
  cases hstmt with
  | bytes hslots =>
    obtain ⟨hnamed, hnext⟩ := h.placeTemplate hparse hhere hslots loc loc'
    exact ⟨⟨hnamed, trivial⟩, hnext.unpended⟩
  | same hbytes havoids =>
    have hsame : Statement.Named x d false stmt stmt := .same hbytes havoids
    cases hdir : directive? stmt with
    | some p => exact h.step_directive hx hdir havoids hdeclared loc loc'
    | none =>
      cases stmt with
      | label l => exact h.step_label hx havoids hdeclared loc loc'
      | equ v =>
        have hv := havoids.values v (List.mem_singleton_self v)
        exact ⟨⟨hsame, trivial⟩, (h.bind hx hv loc loc').unpended⟩
      | bytes t => exact (hbytes t rfl).elim
      | org | phase | align => cases hdir
      | endPhase =>
        obtain ⟨t', ds', rfl⟩ := h.exists_eq
        exact ⟨⟨hsame, trivial⟩, (h.moved s.out s.out s.overflowed).unpended⟩
      | _ => exact ⟨⟨hsame, hdeclared⟩, (h.after hdeclared).unpended⟩

end
end State
end Layout
namespace Patch.State

structure Beside (x : String) (d : Datum) (s s' : State) : Prop where
  memo : Memo.Beside x (.ofDatum d) s.memo s'.memo
  scopes : s'.scopes = s.scopes
  quiet : s'.diagnostics.toList = [] ↔ s.diagnostics.toList = []
  paths : ∀ scope ∈ s.scopes, Scope.IsPath scope

section
variable {x : String} {d : Datum} {s s' : State}

theorem Beside.report (h : s.Beside x d s') (p p' : Problem) (loc loc' : Location) :
    (s.report p loc).Beside x d (s'.report p' loc') := by
  refine ⟨h.memo, h.scopes, ?_, h.paths⟩
  simp only [diagnostics_report, List.append_eq_nil_iff, List.cons_ne_nil, and_false]

theorem Beside.operand (h : s.Beside x d s') (hx : Scope.Unsegmented x) (hv : v.Avoids x)
    (loc loc' : Location) (address : Int64) (placed : Bool) :
    (s'.operand ⟨loc', address, placed⟩ v).1 = (s.operand ⟨loc, address, placed⟩ v).1 ∧
      (s.operand ⟨loc, address, placed⟩ v).2.Beside x d
        (s'.operand ⟨loc', address, placed⟩ v).2 := by
  obtain ⟨hr, hR⟩ := Resolve.value_beside hx hv.mentions
    (ScopeStack.isPath_scopeOf h.paths hv.scope) address s.memo s'.memo h.memo
  rw [← h.scopes] at hr hR
  unfold State.operand
  rw [← h.scopes]
  exact ⟨hr, hR, rfl, h.quiet, fun scope hs => h.paths scope (h.scopes ▸ hs)⟩

theorem Beside.operand_name (hparse : Expr.parse x = .ok (.ident x)) (hhere : x ≠ "$")
    (h : s.Beside x d s') (site : Site) : s'.operand site (.name x) = (.ok d, s') := by
  have hpath : Scope.IsPath (s'.scopes.scopeOf (.name x)) := by
    rw [h.scopes]
    exact ScopeStack.isPath_current h.paths
  have hself : (Resolve.value (.name x) (s'.scopes.scopeOf (.name x)) site.address).run.run
      s'.memo = (.ok d, s'.memo) :=
    Resolve.value_self hparse hhere h.memo hpath [x] site.address
  unfold State.operand
  rw [hself]

theorem operand_ofDatum (s : State) (site : Site) (d : Datum) :
    s.operand site (.ofDatum d) = (.ok d, s) := by
  cases d with
  | number n => rfl
  | text w => rfl

theorem Beside.patchByte (h : s.Beside x d s') (hx : Scope.Unsegmented x) (hv : v.Avoids x)
    (loc loc' : Location) (address : Int64) (placed : Bool) :
    (s'.patchByte ⟨loc', address, placed⟩ v).1 = (s.patchByte ⟨loc, address, placed⟩ v).1 ∧
      (s.patchByte ⟨loc, address, placed⟩ v).2.Beside x d
        (s'.patchByte ⟨loc', address, placed⟩ v).2 := by
  obtain ⟨hr, hR⟩ := h.operand hx hv loc loc' address placed
  unfold State.patchByte
  generalize s.operand ⟨loc, address, placed⟩ v = r at hr hR ⊢
  generalize s'.operand ⟨loc', address, placed⟩ v = r' at hr hR ⊢
  obtain ⟨r, s₁⟩ := r
  obtain ⟨r', s₁'⟩ := r'
  cases hr
  cases r with
  | error e => exact ⟨rfl, hR.report _ _ loc loc'⟩
  | ok d =>
    cases d with
    | number n => exact ⟨rfl, hR⟩
    | text w =>
      dsimp only
      split
      · exact ⟨rfl, hR⟩
      · split
        · exact ⟨rfl, hR.report _ _ loc loc'⟩
        · exact ⟨rfl, hR⟩

theorem Beside.patchWord (h : s.Beside x d s') (hx : Scope.Unsegmented x) (hv : v.Avoids x)
    (loc loc' : Location) (address : Int64) (placed : Bool) :
    (s'.patchWord ⟨loc', address, placed⟩ v).1 = (s.patchWord ⟨loc, address, placed⟩ v).1 ∧
      (s.patchWord ⟨loc, address, placed⟩ v).2.Beside x d
        (s'.patchWord ⟨loc', address, placed⟩ v).2 := by
  obtain ⟨hr, hR⟩ := h.operand hx hv loc loc' address placed
  unfold State.patchWord
  generalize s.operand ⟨loc, address, placed⟩ v = r at hr hR ⊢
  generalize s'.operand ⟨loc', address, placed⟩ v = r' at hr hR ⊢
  obtain ⟨r, s₁⟩ := r
  obtain ⟨r', s₁'⟩ := r'
  cases hr
  cases r with
  | error e => exact ⟨rfl, hR.report _ _ loc loc'⟩
  | ok d =>
    dsimp only
    split
    · exact ⟨rfl, hR⟩
    · exact ⟨rfl, hR.report _ _ loc loc'⟩

theorem Beside.patchRelative {r : Except EvalError Datum} {loc loc' : Location}
    {address : Int64} {placed : Bool} (h : s₁.Beside x d s₁')
    (hr : s.operand ⟨loc, address, placed⟩ v = (r, s₁))
    (hr' : s'.operand ⟨loc', address, placed⟩ v' = (r, s₁')) (length : Nat) :
    (s'.patchRelative ⟨loc', address, placed⟩ length v').1.toByte =
        (s.patchRelative ⟨loc, address, placed⟩ length v).1.toByte ∧
      (s.patchRelative ⟨loc, address, placed⟩ length v).2.Beside x d
        (s'.patchRelative ⟨loc', address, placed⟩ length v').2 := by
  unfold State.patchRelative
  rw [hr, hr']
  dsimp only
  cases r >>= Datum.asNumber none with
  | error e => exact ⟨rfl, h.report _ _ loc loc'⟩
  | ok target =>
    dsimp only
    split
    · exact ⟨rfl, h.report _ _ loc loc'⟩
    · exact ⟨rfl, h⟩

theorem Beside.patchByte_name (hparse : Expr.parse x = .ok (.ident x)) (hhere : x ≠ "$")
    (h : s.Beside x d s') (hb : d.byte? = some b) (site : Site) :
    s'.patchByte site (.name x) = ([.byte b], s') := by
  unfold State.patchByte
  rw [h.operand_name hparse hhere]
  cases d with
  | number n =>
    cases hb
    rfl
  | text w =>
    dsimp only
    rw [Datum.byte?_text hb]

theorem Beside.patchWord_name (hparse : Expr.parse x = .ok (.ident x)) (hhere : x ≠ "$")
    (h : s.Beside x d s') (hn : d.number? = some n) (site : Site) :
    s'.patchWord site (.name x) =
      ([.byte (Word.lowByte n), .byte (Word.highByte n)], s') := by
  unfold State.patchWord
  rw [h.operand_name hparse hhere]
  dsimp only
  rw [Datum.asNumber_eq_ok.2 hn]

theorem Beside.patchSlots (hparse : Expr.parse x = .ok (.ident x)) (hhere : x ≠ "$")
    (hslots : Names x d false slots slots') (h : s.Beside x d s') {done done' : Array Slot}
    (hdone : done'.toList.map Slot.toByte = done.toList.map Slot.toByte) (loc loc' : Location)
    (address : Int64) (placed : Bool) :
    (s'.patchSlots ⟨loc', address, placed⟩ done' slots').1.map Slot.toByte =
        (s.patchSlots ⟨loc, address, placed⟩ done slots).1.map Slot.toByte ∧
      (s.patchSlots ⟨loc, address, placed⟩ done slots).2.Beside x d
        (s'.patchSlots ⟨loc', address, placed⟩ done' slots').2 := by
  have hx : Scope.Unsegmented x := Expr.parse_clean hparse x (List.mem_singleton_self x)
  have hsize : ∀ {done done' : Array Slot},
      done'.toList.map Slot.toByte = done.toList.map Slot.toByte → done'.size = done.size := by
    intro done done' hdone
    have hlength := congrArg List.length hdone
    simpa only [List.length_map, Array.length_toList] using hlength
  induction hslots generalizing s s' done done' with
  | nil => exact ⟨hdone, h⟩
  | namedText hr => cases hr
  | byte _ ih =>
    rw [patchSlots_byte, patchSlots_byte]
    apply ih h
    rw [Array.toList_push, Array.toList_push, List.map_append, List.map_append, hdone]
  | @expr _ _ v hv hnames ih =>
    obtain ⟨hbytes, hnext⟩ := h.patchByte hx hv loc loc' address placed
    rw [patchSlots_expr s _ _ _ hnames.not_high.1, patchSlots_expr s' _ _ _ hnames.not_high.2]
    apply ih hnext
    rw [Array.toList_append, Array.toList_append, List.map_append, List.map_append, hdone, hbytes]
  | @word _ _ v hv _ ih =>
    obtain ⟨hbytes, hnext⟩ := h.patchWord hx hv loc loc' address placed
    rw [patchSlots_word, patchSlots_word]
    apply ih hnext
    rw [Array.toList_append, Array.toList_append, List.map_append, List.map_append, hdone, hbytes]
  | @relative rest rest' v hv hnames ih =>
    obtain ⟨hresult, hR⟩ := h.operand hx hv loc loc' address placed
    obtain ⟨hbyte, hnext⟩ := hR.patchRelative (Prod.mk.eta).symm
      (Prod.ext hresult rfl) (done.size + rest.length + 1)
    rw [patchSlots_relative, patchSlots_relative, hsize hdone, hnames.length_eq]
    apply ih hnext
    rw [Array.toList_push, Array.toList_push, List.map_append, List.map_append, hdone,
      List.map_singleton, List.map_singleton, hbyte]
  | namedByte hb hnames ih =>
    rw [patchSlots_byte, patchSlots_expr s' _ _ _ hnames.not_high.2,
      h.patchByte_name hparse hhere hb]
    apply ih h
    rw [Array.toList_push, Array.toList_append, List.map_append, List.map_append, hdone]
  | namedWord hn _ ih =>
    rw [patchSlots_byte, patchSlots_byte, patchSlots_word, h.patchWord_name hparse hhere hn]
    apply ih h
    simp only [Array.toList_push, Array.toList_append, List.map_append, hdone, List.append_assoc]
    rfl
  | @namedRelative rest rest' hnames ih =>
    obtain ⟨hbyte, hnext⟩ := h.patchRelative (s.operand_ofDatum ⟨loc, address, placed⟩ d)
      (h.operand_name hparse hhere ⟨loc', address, placed⟩) (done.size + rest.length + 1)
    rw [patchSlots_relative, patchSlots_relative, hsize hdone, hnames.length_eq]
    apply ih hnext
    rw [Array.toList_push, Array.toList_push, List.map_append, List.map_append, hdone,
      List.map_singleton, List.map_singleton, hbyte]

end
end Patch.State
end Z80Asm
