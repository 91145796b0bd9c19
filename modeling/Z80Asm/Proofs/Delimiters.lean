import Z80Asm.Proofs.CallDeclarations
import Z80Asm.Proofs.CallReports
import Z80Asm.Proofs.LexicalScope

/-! The delimiters of scopes. They are accepted exactly if they are a word of the Dyck language with
two kinds of brackets, and then every scope ends at the delimiter that matches the one it begins
at. -/

namespace Z80Asm
set_option autoImplicit true

/-- What opens or closes a scope, which is that of a call or that of a block. -/
inductive Delimiter where
  | opening (isCall : Bool)
  | closing (isCall : Bool)
deriving DecidableEq, Repr

namespace Delimiter

/-- The words in which every opening is closed by a closing of its own kind. -/
inductive Dyck : List Delimiter → Prop where
  | nil : Dyck []
  | cons : Dyck u → Dyck w → Dyck (opening k :: (u ++ closing k :: w))

/-- The words that leave the given openings without a closing, innermost first. -/
inductive Leaves : List Bool → List Delimiter → Prop where
  | none : Dyck w → Leaves [] w
  | cons : Leaves ks v → Dyck w → Leaves (k :: ks) (v ++ opening k :: w)

/-- The openings without a closing after one more delimiter. There are none if it closes what has
not been opened. -/
def advance (ks : List Bool) : Delimiter → Option (List Bool)
  | opening k => some (k :: ks)
  | closing k => if ks.head? = some k then some ks.tail else none

theorem advance_closing : advance ks (closing k) = some ks' ↔ ks = k :: ks' := by
  constructor
  · intro h
    cases ks with
    | nil => cases h
    | cons k' ks =>
      by_cases hk : k' = k
      · subst hk
        cases (if_pos rfl).symm.trans h
        rfl
      · have hne : ¬ (k' :: ks).head? = some k := fun h => hk (Option.some.inj h)
        cases (if_neg hne).symm.trans h
  · rintro rfl
    exact if_pos rfl

theorem Dyck.append (hu : Dyck u) (hv : Dyck v) : Dyck (u ++ v) := by
  induction hu with
  | nil => exact hv
  | cons hu _ _ ih =>
    rw [List.cons_append, List.append_assoc, List.cons_append]
    exact .cons hu ih

theorem Dyck.foldlM (h : Dyck w) (ks : List Bool) : w.foldlM advance ks = some ks := by
  induction h generalizing ks with
  | nil => rfl
  | @cons u w k _ _ ihu ihw =>
    have hopen : advance ks (opening k) = some (k :: ks) := rfl
    rw [List.foldlM_cons, hopen, Option.bind_eq_bind, Option.bind_some, List.foldlM_append, ihu,
      Option.bind_eq_bind, Option.bind_some, List.foldlM_cons, advance_closing.2 rfl,
      Option.bind_eq_bind, Option.bind_some, ihw]

theorem Leaves.append (h : Leaves ks v) (hw : Dyck w) : Leaves ks (v ++ w) := by
  cases h with
  | none hv => exact .none (hv.append hw)
  | cons hv hu =>
    rw [List.append_assoc, List.cons_append]
    exact .cons hv (hu.append hw)

theorem Leaves.advance (h : Leaves ks v) (hd : advance ks d = some ks') :
    Leaves ks' (v ++ [d]) := by
  cases d with
  | opening k =>
    cases hd
    exact .cons h .nil
  | closing k =>
    rw [advance_closing] at hd
    subst hd
    cases h with
    | cons hv hw =>
      rw [List.append_assoc, List.cons_append]
      exact hv.append (.cons hw .nil)

theorem Leaves.foldlM (h : Leaves ks v) (hw : w.foldlM Delimiter.advance ks = some ks') :
    Leaves ks' (v ++ w) := by
  induction w generalizing ks v with
  | nil =>
    cases hw
    rw [List.append_nil]
    exact h
  | cons d w ih =>
    obtain ⟨mid, hd, hrest⟩ := Option.bind_eq_some_iff.1 hw
    rw [List.append_cons]
    exact ih (h.advance hd) hrest

theorem leaves_of_foldlM (h : w.foldlM advance [] = some ks) : Leaves ks w :=
  Leaves.foldlM (.none .nil) h

theorem dyck_iff : Dyck w ↔ w.foldlM advance [] = some [] := by
  constructor
  · intro h
    exact h.foldlM []
  · intro h
    cases leaves_of_foldlM h with
    | none hw => exact hw

theorem Dyck.not_dyck (h : Dyck (u ++ opening k :: w)) : ¬ Dyck w := by
  intro hw
  have hword := h.foldlM []
  rw [List.foldlM_append] at hword
  obtain ⟨ks, -, hrest⟩ := Option.bind_eq_some_iff.1 hword
  have hopen : (opening k :: w).foldlM Delimiter.advance ks = some (k :: ks) := hw.foldlM (k :: ks)
  cases hopen.symm.trans hrest

end Delimiter

/-- The delimiter that a statement is, if it is one. Calls open a scope once they are expanded. -/
def Statement.delimiter? : Statement → Option Delimiter
  | .block _ => some (.opening false)
  | .endBlock _ => some (.closing false)
  | .call c => if c.expanded then some (.opening true) else none
  | .endCall .. => some (.closing true)
  | _ => none

def Statement.scope? : Statement → Option String
  | .block scope | .endBlock scope | .endCall _ scope => some scope
  | .call c => some c.scope
  | _ => none

namespace Program
open Delimiter

theorem exists_split {es : List Element} (h : es[n]? = some e) :
    ∃ front back : List Element, es = front ++ e :: back ∧ front.length = n := by
  obtain ⟨hn, rfl⟩ := List.getElem?_eq_some_iff.1 h
  refine ⟨es.take n, es.drop (n + 1), ?_, List.length_take_of_le (Nat.le_of_lt hn)⟩
  rw [List.getElem_cons_drop, List.take_append_drop]

def delimiters (es : List Element) : List Delimiter := es.filterMap fun e => e.stmt.delimiter?

def delimiterAt? (es : List Element) (n : Nat) : Option Delimiter :=
  es[n]?.bind fun e => e.stmt.delimiter?

def scopeAt? (es : List Element) (n : Nat) : Option String := es[n]?.bind fun e => e.stmt.scope?

/-- The element at `n` closes what the one at `m` opens: what stands between them closes all that
it opens, and nothing else. -/
structure Matches (es : List Element) (m n : Nat) : Prop where
  lt : m < n
  kinds : ∃ k, delimiterAt? es m = some (.opening k) ∧ delimiterAt? es n = some (.closing k)
  between : Dyck (delimiters ((es.take n).drop (m + 1)))

theorem delimiters_append (es es' : List Element) :
    delimiters (es ++ es') = delimiters es ++ delimiters es' :=
  List.filterMap_append

theorem delimiters_congr {es es' : List Element}
    (h : es.map (fun e => e.stmt.delimiter?) = es'.map fun e => e.stmt.delimiter?) :
    delimiters es = delimiters es' := by
  have hword (es : List Element) :
      delimiters es = (es.map fun e => e.stmt.delimiter?).filterMap id := by
    rw [List.filterMap_map]
    rfl
  rw [hword, hword, h]

theorem opens_of_opening (h : stmt.delimiter? = some (.opening k)) : opens stmt = true := by
  cases stmt with
  | block => rfl
  | call c =>
    by_cases hc : c.expanded = true
    · exact hc
    · cases (if_neg hc).symm.trans h
  | _ => cases h

theorem exists_of_delimiters (h : delimiters es = v ++ d :: w) :
    ∃ front e back, es = front ++ e :: back ∧ e.stmt.delimiter? = some d ∧ delimiters back = w := by
  obtain ⟨es₁, es₂, rfl, -, h₂⟩ := List.filterMap_eq_append_iff.1 h
  obtain ⟨es₃, e, back, rfl, -, he, hback⟩ := List.filterMap_eq_cons_iff.1 h₂
  exact ⟨es₁ ++ es₃, e, back, (List.append_assoc _ _ _).symm, he, hback⟩

theorem bracketsAfter_eq (ks : List Bool) (stmt : Statement) :
    bracketsAfter ks stmt = stmt.delimiter?.elim (some ks) (advance ks) := by
  cases stmt with
  | call c =>
    simp only [bracketsAfter, Statement.delimiter?]
    cases c.expanded <;> rfl
  | _ => rfl

theorem brackets_eq (ks : List Bool) (es : List Element) :
    brackets ks es = (delimiters es).foldlM advance ks := by
  induction es generalizing ks with
  | nil => rfl
  | cons e es ih =>
    have hrest : (brackets · es) = fun ks => (delimiters es).foldlM advance ks := funext ih
    rw [brackets, bracketsAfter_eq, hrest, delimiters, delimiters, List.filterMap_cons]
    cases e.stmt.delimiter? with
    | none => rfl
    | some d => rfl

/-- The elements are well bracketed if their delimiters are a Dyck word. -/
theorem wellBracketed_iff : WellBracketed es ↔ Dyck (delimiters es) := by
  rw [WellBracketed, brackets_eq, dyck_iff]

section
variable {es : List Element}

theorem exists_matches (h : Dyck (delimiters es)) (hn : delimiterAt? es n = some (.closing k)) :
    ∃ m, Matches es m n := by
  obtain ⟨e, he, hd⟩ := Option.bind_eq_some_iff.1 hn
  obtain ⟨front, back, rfl, rfl⟩ := exists_split he
  -- the openings before the closing, of which it closes the last
  have hword := h.foldlM []
  rw [delimiters_append, List.foldlM_append] at hword
  obtain ⟨ks, hfront, hback⟩ := Option.bind_eq_some_iff.1 hword
  rw [delimiters, List.filterMap_cons, hd] at hback
  obtain ⟨ks', hclose, -⟩ := Option.bind_eq_some_iff.1 hback
  rw [advance_closing] at hclose
  subst hclose
  generalize hv : delimiters front = v at hfront
  cases leaves_of_foldlM hfront with
  | cons hu hw =>
    obtain ⟨outer, a, between, rfl, ha, rfl⟩ := exists_of_delimiters hv
    refine ⟨outer.length, ?_, ⟨k, ?_, hn⟩, ?_⟩
    · rw [List.length_append]
      exact Nat.lt_add_of_pos_right (Nat.succ_pos _)
    · rw [delimiterAt?, List.append_assoc, List.getElem?_append_right (Nat.le_refl _), Nat.sub_self]
      exact ha
    · have hlen : (outer ++ [a]).length = outer.length + 1 := List.length_append
      rw [List.take_left, List.append_cons, List.drop_left' hlen]
      exact hw

theorem Matches.not_lt (h : Matches es m n) (h' : Matches es m' n) : ¬ m < m' := by
  intro hlt
  obtain ⟨k, hm', -⟩ := h'.kinds
  obtain ⟨a, ha, hd⟩ := Option.bind_eq_some_iff.1 hm'
  -- the later opening stands between the earlier one and the closing
  have hinner : ((es.take n).drop (m + 1))[m' - (m + 1)]? = some a := by
    rw [List.getElem?_drop, Nat.add_sub_cancel' hlt, List.getElem?_take_of_lt h'.lt]
    exact ha
  obtain ⟨front, back, hsplit, hlen⟩ := exists_split hinner
  have hback : (es.take n).drop (m' + 1) = back := by
    have hdrop := congrArg (List.drop (m' - (m + 1) + 1)) hsplit
    rw [List.append_cons, List.drop_left' (by rw [List.length_append, hlen]; rfl),
      List.drop_drop, ← Nat.add_assoc, Nat.add_sub_cancel' hlt] at hdrop
    exact hdrop
  have hword := h.between
  rw [hsplit, delimiters_append, delimiters, delimiters, List.filterMap_cons, hd] at hword
  exact hword.not_dyck (hback ▸ h'.between)

theorem Matches.unique (h : Matches es m n) (h' : Matches es m' n) : m' = m :=
  Nat.le_antisymm (Nat.not_lt.1 (h.not_lt h')) (Nat.not_lt.1 (h'.not_lt h))

end
end Program

def Problem.aboutDelimiter : Problem → Bool
  | unclosedCall | unclosedBlock | endCallWithoutCall | endBlockWithoutBlock | wrongDelimiter _ =>
    true
  | _ => false

namespace Declarations
open Program Delimiter

namespace State

def reported (p : Problem → Bool) (s : State) : List Diagnostic :=
  s.diagnostics.filter fun d => p d.problem

theorem reported_report (s : State) (h : p problem = false) (loc : Location) :
    (s.report problem loc).reported p = s.reported p := by
  have hnone : [(⟨problem, loc⟩ : Diagnostic)].filter (fun d => p d.problem) = [] :=
    List.filter_cons_of_neg (Bool.eq_false_iff.1 h)
  rw [reported, report, List.filter_append, hnone, List.append_nil]
  rfl

theorem reported_report_ne_nil (s : State) (h : p problem = true) (loc : Location) :
    (s.report problem loc).reported p ≠ [] := by
  have hone : [(⟨problem, loc⟩ : Diagnostic)].filter (fun d => p d.problem) = [⟨problem, loc⟩] :=
    List.filter_cons_of_pos h
  rw [reported, report, List.filter_append, hone]
  exact List.append_ne_nil_of_right_ne_nil _ (List.cons_ne_nil _ _)

theorem reported_declare (s : State) (name : String) (v : Value) (loc : Location)
    (h : p taken = false) : (s.declare name v loc taken).reported p = s.reported p := by
  rw [declare]
  split
  · rfl
  · exact s.reported_report h loc

theorem reported_bind (s : State) (c : MacroCall) (caller scope : String) (loc : Location)
    (params : List String) (args : List Value)
    (h : ∀ param name, p (.duplicateParameter param name) = false) :
    (s.bind c caller scope loc params args).reported p = s.reported p := by
  induction params generalizing s args with
  | nil => rfl
  | cons param params ih =>
    unfold State.bind
    rw [ih]
    exact s.reported_declare _ _ loc (h param c.name)

theorem reported_enterCall (s : State) (c : MacroCall) (loc : Location)
    (h : ∀ param name, p (.duplicateParameter param name) = false)
    (h' : ∀ name params args, p (.tooManyArguments name params args) = false) :
    (s.enterCall c loc).2.reported p = s.reported p := by
  rw [enterCall_snd]
  dsimp only
  split
  · rw [reported_report _ (h' _ _ _), reported_bind _ _ _ _ _ _ _ h]
    rfl
  · rw [reported_bind _ _ _ _ _ _ _ h]
    rfl

def kinds (s : State) : List Bool := s.stack.map Frame.isCall

/-- A closing is reported unless it is one of the kind of scope that has been opened last. -/
theorem leave_delimiter (s : State) (isCall : Bool) (loc : Location) :
    (advance s.kinds (.closing isCall) = some (s.leave isCall loc).2.kinds ∧
        (s.leave isCall loc).2.reported Problem.aboutDelimiter =
          s.reported Problem.aboutDelimiter) ∨
      (advance s.kinds (.closing isCall) = none ∧
        (s.leave isCall loc).2.reported Problem.aboutDelimiter ≠ []) := by
  cases hs : s.stack with
  | nil =>
    right
    have hleave : (s.leave isCall loc).2 =
        s.report (if isCall then .endCallWithoutCall else .endBlockWithoutBlock) loc := by
      simp only [leave, hs]
    rw [hleave, kinds, hs]
    refine ⟨rfl, s.reported_report_ne_nil ?_ loc⟩
    cases isCall <;> rfl
  | cons f fs =>
    by_cases hk : f.isCall = isCall
    · left
      have hleave : (s.leave isCall loc).2 = { s with stack := fs } := by
        simp only [leave, hs, if_pos hk]
      rw [hleave, kinds, hs, advance_closing]
      exact ⟨congrArg (· :: _) hk, rfl⟩
    · right
      have hleave : (s.leave isCall loc).2 =
          ({ s with stack := fs } : State).report (.wrongDelimiter f.loc) loc := by
        simp only [leave, hs, if_neg hk]
      rw [hleave, kinds, hs]
      refine ⟨if_neg ?_, reported_report_ne_nil _ rfl loc⟩
      exact fun h => hk (Option.some.inj h)

theorem step_delimiter (s : State) (e : Element) :
    (bracketsAfter s.kinds e.stmt = some (s.step e).2.kinds ∧
        (s.step e).2.reported Problem.aboutDelimiter = s.reported Problem.aboutDelimiter) ∨
      (bracketsAfter s.kinds e.stmt = none ∧
        (s.step e).2.reported Problem.aboutDelimiter ≠ []) := by
  obtain ⟨loc, stmt⟩ := e
  cases stmt with
  | endBlock => exact s.leave_delimiter false loc
  | endCall => exact s.leave_delimiter true loc
  | label l =>
    left
    constructor
    · exact congrArg (fun stack => some (stack.map Frame.isCall)) (declare_frame s _ _ _ _).2.symm
    · exact s.reported_declare _ _ loc rfl
  | call c =>
    left
    rw [step, bracketsAfter]
    dsimp only
    split
    · constructor
      · exact congrArg (fun stack => some (stack.map Frame.isCall)) (s.stack_enterCall c loc).symm
      · exact s.reported_enterCall c loc (fun _ _ => rfl) fun _ _ _ => rfl
    · exact ⟨rfl, rfl⟩
  | _ => exact .inl ⟨rfl, rfl⟩

theorem thread_delimiters (s : State) (es : List Element) :
    (brackets s.kinds es = some (thread step s es).2.kinds ∧
        (thread step s es).2.reported Problem.aboutDelimiter =
          s.reported Problem.aboutDelimiter) ∨
      (brackets s.kinds es = none ∧
        (thread step s es).2.reported Problem.aboutDelimiter ≠ []) := by
  induction es generalizing s with
  | nil => exact .inl ⟨rfl, rfl⟩
  | cons e es ih =>
    rw [brackets, thread]
    rcases s.step_delimiter e with ⟨hb, hr⟩ | ⟨hb, hr⟩
    · rw [hb, ← hr]
      exact ih (s.step e).2
    · rw [hb]
      refine .inr ⟨rfl, ?_⟩
      -- what has been reported stays so
      obtain ⟨new, hnew, -⟩ := (thread_progress (s.step e).2 es).reports
      rw [reported, hnew, List.filter_append]
      exact List.append_ne_nil_of_left_ne_nil hr _

end State

theorem not_aboutDelimiter_iff (es : List Element) :
    (∀ d ∈ (collect es).diagnostics, d.problem.aboutDelimiter = false) ↔
      WellBracketed (outside es) := by
  have hreported : (∀ d ∈ (collect es).diagnostics, d.problem.aboutDelimiter = false) ↔
      (thread State.step {} (outside es)).2.reported Problem.aboutDelimiter = [] ∧
        (thread State.step {} (outside es)).2.kinds = [] := by
    rw [collect_diagnostics, State.finish_diagnostics, State.kinds, List.map_eq_nil_iff]
    simp only [State.reported, List.filter_eq_nil_iff, Bool.not_eq_true]
    constructor
    · intro h
      refine ⟨fun d hd => h d (List.mem_append_left _ hd), List.eq_nil_iff_forall_not_mem.2 ?_⟩
      intro f hf
      have hopen := h _ (List.mem_append_right _ (List.mem_map_of_mem hf))
      cases hcall : f.isCall <;>
        · rw [hcall] at hopen
          cases hopen
    · rintro ⟨h, hstack⟩ d hd
      rw [hstack, List.map_nil, List.append_nil] at hd
      exact h d hd
  rw [hreported, WellBracketed]
  rcases State.thread_delimiters {} (outside es) with ⟨hb, hr⟩ | ⟨hb, hr⟩
  · have hbrackets : brackets [] (outside es) =
        some (thread State.step {} (outside es)).2.kinds := hb
    rw [hbrackets, hr, Option.some_inj]
    exact and_iff_right rfl
  · have hbrackets : brackets [] (outside es) = none := hb
    rw [hbrackets]
    exact ⟨fun h => (hr h.1).elim, nofun⟩

namespace State

theorem delimiter?_step (s : State) (e : Element) :
    (s.step e).1.delimiter? = e.stmt.delimiter? := by
  obtain ⟨loc, stmt⟩ := e
  cases stmt with
  | call c =>
    rw [step]
    dsimp only
    split <;> rfl
  | _ => rfl

theorem leave_fst (s : State) (isCall : Bool) (loc : Location) :
    (s.leave isCall loc).1 = s.scope := by
  unfold leave scope
  cases s.stack <;> rfl

theorem scope?_opening (s : State) (h : e.stmt.delimiter? = some (.opening k)) :
    (s.step e).1.scope? = some (s.step e).2.scope := by
  obtain ⟨loc, stmt⟩ := e
  cases stmt with
  | block => rfl
  | call c =>
    by_cases hc : c.expanded = true
    · rw [s.step_call hc, scope, stack_enterCall, ← s.enter_fst true loc]
      rfl
    · cases (if_neg hc).symm.trans h
  | _ => cases h

theorem scope?_closing (s : State) (h : e.stmt.delimiter? = some (.closing k)) :
    (s.step e).1.scope? = some s.scope := by
  obtain ⟨loc, stmt⟩ := e
  cases stmt with
  | endBlock => exact congrArg some (s.leave_fst false loc)
  | endCall => exact congrArg some (s.leave_fst true loc)
  | call c =>
    rw [Statement.delimiter?] at h
    split at h <;> cases h
  | _ => cases h

/-- Elements whose delimiters are a Dyck word leave the open scopes as they are. -/
theorem stack_thread_of_dyck {s : State} (hs : 0 < s.next) (h : Dyck (delimiters es)) :
    (thread step s es).2.stack = s.stack := by
  have hinside : Inside 0 s.stack ([] : List Bool).length s := ⟨[], rfl, rfl, nofun⟩
  have hnames : ∀ q ∈ ([] : List String), q ∈ s.table.names := nofun
  obtain ⟨-, inner, hstack, hlen, -⟩ :=
    thread_recast_inside hinside hs hnames (wellBracketed_iff.2 h)
  rw [hstack, List.length_eq_zero_iff.1 hlen]
  rfl

end State

section
variable {es : List Element}

theorem map_delimiter?_declared (es : List Element) :
    (declared es).map (fun e => e.stmt.delimiter?) = es.map fun e => e.stmt.delimiter? := by
  apply List.ext_getElem?
  intro n
  rw [List.getElem?_map, getElem?_declared, List.getElem?_map, Option.map_map]
  apply Option.map_congr
  intro e _
  exact State.delimiter?_step _ e

theorem through_of_le (es : List Element) (h : m ≤ n) :
    State.through es n = (thread State.step (State.through es m) ((es.take n).drop m)).2 := by
  have hsplit : es.take n = es.take m ++ (es.take n).drop m := by
    conv => lhs; rw [← List.take_append_drop m (es.take n), List.take_take, Nat.min_eq_left h]
  conv => lhs; rw [State.through, hsplit, thread_append]
  rfl

theorem scopeAt?_opening (h : delimiterAt? (declared es) m = some (.opening k)) :
    scopeAt? (declared es) m = some (State.through es (m + 1)).scope := by
  obtain ⟨a', ha', hopening⟩ := Option.bind_eq_some_iff.1 h
  obtain ⟨a, ha, rfl⟩ := Option.map_eq_some_iff.1 ((getElem?_declared es m).symm.trans ha')
  rw [scopeAt?, getElem?_declared, ha, State.through_succ ha]
  apply State.scope?_opening
  rw [← State.delimiter?_step]
  exact hopening

/-- An opening and the closing that matches it carry the same scope. -/
theorem scopeAt?_of_matches (h : Matches (declared es) m n) :
    scopeAt? (declared es) m = scopeAt? (declared es) n := by
  obtain ⟨k, hm, hn⟩ := h.kinds
  obtain ⟨a, ha, hopening⟩ := Option.bind_eq_some_iff.1 hm
  obtain ⟨b', hb', hclosing⟩ := Option.bind_eq_some_iff.1 hn
  obtain ⟨b, hb, rfl⟩ := Option.map_eq_some_iff.1 ((getElem?_declared es n).symm.trans hb')
  have hcloses : scopeAt? (declared es) n = some (State.through es n).scope := by
    rw [scopeAt?, getElem?_declared, hb]
    apply State.scope?_closing
    rw [← State.delimiter?_step]
    exact hclosing
  have hnext : 0 < (State.through es (m + 1)).next :=
    Nat.zero_lt_of_lt (State.next_lt_through ha (opens_of_opening hopening) (Nat.lt_succ_self m))
  have hstack : (State.through es n).stack = (State.through es (m + 1)).stack := by
    rw [through_of_le es h.lt]
    apply State.stack_thread_of_dyck hnext
    have hsame : (((declared es).take n).drop (m + 1)).map (fun e => e.stmt.delimiter?) =
        ((es.take n).drop (m + 1)).map fun e => e.stmt.delimiter? := by
      rw [List.map_drop, List.map_take, map_delimiter?_declared, List.map_drop, List.map_take]
    rw [← delimiters_congr hsame]
    exact h.between
  rw [scopeAt?_opening hm, hcloses, State.scope, State.scope, hstack]

end

/-- Delimiters are accepted exactly if they are a word of the Dyck language of blocks and calls.
Each closing then matches one opening, and both carry the same scope. -/
theorem delimiters_accepted_iff (es : List Element) :
    let program := outside (collect es).program
    ((∀ d ∈ (collect es).diagnostics, d.problem.aboutDelimiter = false) ↔
        Dyck (delimiters (outside es))) ∧
      (Dyck (delimiters (outside es)) → ∀ n k, delimiterAt? program n = some (.closing k) →
        (∃! m, Matches program m n) ∧
          ∀ m, Matches program m n → scopeAt? program m = scopeAt? program n) := by
  intro program
  have hprogram : program = declared (outside es) := outside_collect es
  refine ⟨(not_aboutDelimiter_iff es).trans wellBracketed_iff, ?_⟩
  intro h n k hn
  rw [hprogram] at hn ⊢
  rw [← delimiters_congr (map_delimiter?_declared (outside es))] at h
  obtain ⟨m, hm⟩ := exists_matches h hn
  exact ⟨⟨m, hm, fun m' hm' => hm.unique hm'⟩, fun m' hm' => scopeAt?_of_matches hm'⟩

end Declarations
end Z80Asm
