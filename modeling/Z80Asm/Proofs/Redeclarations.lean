import Z80Asm.Proofs.DistinctScopes
import Z80Asm.Proofs.Foreknowledge

/-! What becomes of a symbol that is declared again. A label leaves alone the value that its symbol
has, but a value bound to the label replaces it, whoever has declared the symbol first. -/

namespace Z80Asm
set_option autoImplicit true

namespace Program

/-- The element at `n` is a label with the symbol `q`. -/
def LabelAt (es : List Element) (n : Nat) (q : String) : Prop :=
  ∃ loc l, es[n]? = some ⟨loc, .label l⟩ ∧ l.symbol = q

def LabelsFrom (es : List Element) (n k : Nat) : Prop :=
  ∀ j, n ≤ j → j < k → ∃ q, LabelAt es j q

structure Binds (es : List Element) (n k : Nat) (v : Value) : Prop where
  lt : n < k
  labels : LabelsFrom es n k
  equ : ∃ loc, es[k]? = some ⟨loc, .equ v⟩

section
variable {es : List Element}

theorem LabelAt.lt (h : LabelAt es n q) : n < es.length := by
  obtain ⟨loc, l, hl, -⟩ := h
  exact (List.getElem?_eq_some_iff.1 hl).1

theorem LabelAt.stmt (h : LabelAt es n q) (he : es[n]? = some e) :
    ∃ l, e.stmt = .label l ∧ l.symbol = q := by
  obtain ⟨loc, l, hl, hq⟩ := h
  cases he.symm.trans hl
  exact ⟨l, rfl, hq⟩

theorem LabelsFrom.step (h : LabelsFrom es n k) (hk : LabelAt es k q) :
    LabelsFrom es n (k + 1) := by
  intro j hnj hjk
  rcases Nat.lt_succ_iff_lt_or_eq.1 hjk with hlt | rfl
  · exact h j hnj hlt
  · exact ⟨q, hk⟩

theorem LabelsFrom.pred (h : LabelsFrom es n (k + 1)) : LabelsFrom es n k :=
  fun j hnj hjk => h j hnj (Nat.lt_succ_of_lt hjk)

theorem LabelsFrom.not_across (h : LabelsFrom es n k) (he : es[j]? = some e)
    (hl : ∀ l, e.stmt ≠ .label l) (hjk : j < k) : j < n := by
  apply Nat.lt_of_not_le
  intro hnj
  obtain ⟨q, hq⟩ := h j hnj hjk
  obtain ⟨l, hstmt, -⟩ := hq.stmt he
  exact hl l hstmt

end
end Program

def SymbolTable.Valued (t : SymbolTable) (q : String) : Prop :=
  ∃ v, t.get? q = some v ∧ v.content ≠ .unresolved

theorem SymbolTable.Settles.valued_iff (h : Settles t t') : t'.Valued q ↔ t.Valued q := by
  constructor
  · rintro ⟨v, hv, hne⟩
    obtain ⟨v₀, hv₀⟩ := exists_get? (h.names ▸ mem_names_of_get? hv)
    refine ⟨v₀, hv₀, fun hc => ?_⟩
    rcases h.value q v₀ hv₀ with hv' | ⟨hd, -⟩
    · cases hv.symm.trans hv'
      exact hne hc
    · rw [Value.isDeferred, hc] at hd
      cases hd
  · rintro ⟨v, hv, hne⟩
    rcases h.value q v hv with hv' | ⟨-, d, -, hv'⟩
    · exact ⟨v, hv', hne⟩
    · refine ⟨.ofDatum d, hv', fun hc => ?_⟩
      cases d <;> cases hc

namespace Layout.State
open Program

section
variable {s : State} {l : Label}

theorem get?_placeLabel_of_valued
    (hl : (if l.symbol.isEmpty then l.name else l.symbol) = l.symbol)
    (h : q ≠ l.symbol ∨ s.table.Valued q) :
    (s.placeLabel l).2.table.get? q = s.table.get? q := by
  have hset (hnone : ¬ s.table.Valued l.symbol) :
      (s.table.set l.symbol (.number s.address)).get? q = s.table.get? q := by
    have hq : q ≠ l.symbol := h.elim id fun hv he => hnone (he ▸ hv)
    rw [SymbolTable.get?_set, if_neg hq]
  unfold placeLabel
  simp only [hl]
  split
  · rename_i hv
    apply hset
    rintro ⟨v, hv', hne⟩
    cases hv.symm.trans hv'
    exact hne rfl
  · rename_i hv
    apply hset
    rintro ⟨v, hv', -⟩
    cases hv.symm.trans hv'
  · rfl

theorem get?_placeLabel_self
    (hl : (if l.symbol.isEmpty then l.name else l.symbol) = l.symbol)
    (h : ¬ s.table.Valued l.symbol) :
    (s.placeLabel l).2.table.get? l.symbol = some (.number s.address) := by
  unfold placeLabel
  simp only [hl]
  split
  · exact SymbolTable.get?_set_self _ _ _
  · exact SymbolTable.get?_set_self _ _ _
  · rename_i v hne hv
    refine (h ⟨v, hv, ?_⟩).elim
    intro hc
    obtain ⟨content, scope?, here?⟩ := v
    cases hc
    exact hne scope? here? rfl

/-- A value that is bound replaces those of all labels directly before it. -/
theorem get?_step_equ (s : State) (loc : Location) (v : Value) (q : String) :
    (s.step ⟨loc, .equ v⟩).2.table.get? q =
      if q ∈ s.pending then some (boundValue s.scopes s.address v) else s.table.get? q := by
  change (s.bind v loc).table.get? q = _
  by_cases hp : s.pending = []
  · have hq : q ∉ s.pending := hp ▸ List.not_mem_nil
    rw [if_neg hq]
    unfold State.bind
    rw [hp]
    rfl
  · exact get?_bind hp v loc q

theorem valued_step_of_evaluates (s : State) (h : Evaluates e) :
    (s.step e).2.table.Valued q ↔ s.table.Valued q := by
  rw [step_of_not_label s h.1]
  exact (s.placeOther_settles e h.2).valued_iff

end

end Layout.State

namespace Declarations
open Program

section
variable {es : List Element}

/-- The label at `n` is reported, since its symbol `q` is declared already. -/
def Redeclares (es : List Element) (n : Nat) (q : String) : Prop :=
  LabelAt (declared es) n q ∧
    (State.through es (n + 1)).reported Problem.isDuplicateSymbol ≠
      (State.through es n).reported Problem.isDuplicateSymbol

/-- The element at `m` is the first to declare the symbol `q`. -/
def FirstDeclares (es : List Element) (m : Nat) (q : String) : Prop :=
  q ∉ (State.through es m).table.names ∧ q ∈ (State.through es (m + 1)).table.names

theorem named_declared (es : List Element) : ∀ e ∈ declared es, Named e :=
  fun _ he => named_thread he

theorem mem_names_of_labelAt (h : LabelAt (declared es) n q) (hlt : n < k) :
    q ∈ (State.through es k).table.names := by
  obtain ⟨loc, l, hl, rfl⟩ := h
  obtain ⟨l₀, he, rfl⟩ := declared_label hl
  exact (State.mem_names_through es k).2 ⟨n, hlt, _, he, List.mem_singleton_self _⟩

theorem names_mono (h : q ∈ (State.through es m).table.names) (hle : m ≤ n) :
    q ∈ (State.through es n).table.names := by
  obtain ⟨i, hi, e, he, hq⟩ := (State.mem_names_through es m).1 h
  exact (State.mem_names_through es n).2 ⟨i, Nat.lt_of_lt_of_le hi hle, e, he, hq⟩

theorem FirstDeclares.le (h : FirstDeclares es m q) (hn : LabelAt (declared es) n q) : m ≤ n := by
  apply Nat.le_of_not_lt
  intro hlt
  exact h.1 (mem_names_of_labelAt hn hlt)

theorem redeclares_iff (h : FirstDeclares es m q) :
    Redeclares es n q ↔ LabelAt (declared es) n q ∧ m < n := by
  refine and_congr_right fun hlabel => ?_
  obtain ⟨loc, l, hl, rfl⟩ := hlabel
  obtain ⟨l₀, he, rfl⟩ := declared_label hl
  have hstep : (State.through es (n + 1)).reported Problem.isDuplicateSymbol = _ :=
    (congrArg (State.reported Problem.isDuplicateSymbol) (State.through_succ he)).trans
      ((State.through es n).reported_declareLabel l₀ loc)
  rw [hstep, ne_eq, List.append_right_eq_self, Option.toList_eq_nil_iff, Option.map_eq_none_iff,
    ← ne_eq, Option.ne_none_iff_isSome, SymbolTable.site?_isSome]
  constructor
  · intro hmem
    apply Nat.lt_of_not_le
    intro hle
    exact h.1 (names_mono hmem hle)
  · intro hlt
    exact names_mono h.2 hlt

end
end Declarations

namespace Layout
open Program

def placedTo (t : SymbolTable) (es : List Element) (n : Nat) : State := State.through t (es.take n)

section
variable {es : List Element} {t : SymbolTable}

theorem placedTo_succ (he : es[n]? = some e) :
    placedTo t es (n + 1) = ((placedTo t es n).step e).2 :=
  thread_take_succ he

section
variable (hnamed : ∀ e ∈ es, Declarations.Named e)
include hnamed

theorem mem_pending_iff (hk : k ≤ es.length) :
    q ∈ (placedTo t es k).pending ↔ ∃ n, n < k ∧ LabelAt es n q ∧ LabelsFrom es n k := by
  induction k with
  | zero =>
    exact ⟨fun h => (List.not_mem_nil h).elim, fun ⟨n, hn, _⟩ => (Nat.not_lt_zero n hn).elim⟩
  | succ k ih =>
    obtain ⟨e, he⟩ : ∃ e, es[k]? = some e := ⟨_, List.getElem?_eq_getElem hk⟩
    rw [placedTo_succ he]
    by_cases hlabel : ∃ l, e.stmt = .label l
    · obtain ⟨l, hlabel⟩ := hlabel
      have hname := hnamed e (List.mem_of_getElem? he) l hlabel
      obtain ⟨loc, stmt⟩ := e
      cases hlabel
      have hhere : LabelAt es k l.symbol := ⟨loc, l, he, rfl⟩
      change q ∈ ((placedTo t es k).placeLabel l).2.pending ↔ _
      rw [State.pending_placeLabel hname, List.mem_append, List.mem_singleton,
        ih (Nat.le_of_succ_le hk)]
      constructor
      · rintro (⟨n, hn, hq, hrun⟩ | rfl)
        · exact ⟨n, Nat.lt_succ_of_lt hn, hq, hrun.step hhere⟩
        · refine ⟨k, Nat.lt_succ_self k, hhere, fun j hkj hjk => ?_⟩
          rw [Nat.le_antisymm (Nat.le_of_lt_succ hjk) hkj]
          exact ⟨_, hhere⟩
      · rintro ⟨n, hn, hq, hrun⟩
        rcases Nat.lt_succ_iff_lt_or_eq.1 hn with hlt | rfl
        · exact .inl ⟨n, hlt, hq, hrun.pred⟩
        · obtain ⟨l', hl', rfl⟩ := hq.stmt he
          cases hl'
          exact .inr rfl
    · have hother : ∀ l, e.stmt ≠ .label l := fun l h => hlabel ⟨l, h⟩
      rw [State.step_of_not_label _ hother]
      refine ⟨fun h => (List.not_mem_nil h).elim, ?_⟩
      rintro ⟨n, hn, -, hrun⟩
      exact (Nat.not_lt_of_le (Nat.le_of_lt_succ hn)
        (hrun.not_across he hother (Nat.lt_succ_self k))).elim

theorem get?_of_binds (hb : Binds es n k v) (hq : LabelAt es n q) :
    (placedTo t es (k + 1)).table.get? q =
      some (State.boundValue (placedTo t es k).scopes (placedTo t es k).address v) := by
  obtain ⟨loc, he⟩ := hb.equ
  have hk := Nat.le_of_lt (List.getElem?_eq_some_iff.1 he).1
  rw [placedTo_succ he, State.get?_step_equ, if_pos]
  exact (mem_pending_iff hnamed hk).2 ⟨n, hb.lt, hq, hb.labels⟩

/-- Whether a symbol has a value changes only with labels of its own and values bound to them. -/
theorem valued_succ (hn : n < es.length) :
    LabelAt es n q ∨ (∃ i v, Binds es i n v ∧ LabelAt es i q) ∨
      ((placedTo t es (n + 1)).table.Valued q ↔ (placedTo t es n).table.Valued q) := by
  obtain ⟨⟨loc, stmt⟩, he⟩ : ∃ e, es[n]? = some e := ⟨_, List.getElem?_eq_getElem hn⟩
  by_cases hev : State.Evaluates ⟨loc, stmt⟩
  · rw [placedTo_succ he]
    exact .inr (.inr (State.valued_step_of_evaluates _ hev))
  cases stmt with
  | label l =>
    by_cases hq : q = l.symbol
    · exact .inl ⟨loc, l, he, hq.symm⟩
    · have hname := hnamed _ (List.mem_of_getElem? he) l rfl
      have hget : ((placedTo t es n).step ⟨loc, .label l⟩).2.table.get? q = _ :=
        State.get?_placeLabel_of_valued hname (.inl hq)
      rw [placedTo_succ he, SymbolTable.Valued, hget]
      exact .inr (.inr Iff.rfl)
  | equ v =>
    by_cases hq : q ∈ (placedTo t es n).pending
    · obtain ⟨i, hi, hlabel, hrun⟩ := (mem_pending_iff hnamed (Nat.le_of_lt hn)).1 hq
      exact .inr (.inl ⟨i, v, ⟨hi, hrun, loc, he⟩, hlabel⟩)
    · rw [placedTo_succ he, SymbolTable.Valued, State.get?_step_equ, if_neg hq]
      exact .inr (.inr Iff.rfl)
  | _ => exact (hev ⟨nofun, nofun⟩).elim

/-- A symbol without a value gets none before a label of its own, if no label of its own waits for a
value. -/
theorem not_valued_until (ha : ¬ (placedTo t es a).table.Valued q)
    (hpending : ∀ i, i < a → LabelAt es i q → ¬ LabelsFrom es i a)
    (hle : a ≤ n) (hn : n ≤ es.length) (hnone : ∀ i, a ≤ i → i < n → ¬ LabelAt es i q) :
    ¬ (placedTo t es n).table.Valued q := by
  induction hle with
  | refl => exact ha
  | @step n hle ih =>
    rcases valued_succ (t := t) hnamed hn with hlabel | ⟨i, v, hb, hlabel⟩ | hsame
    · exact (hnone n hle (Nat.lt_succ_self n) hlabel).elim
    · rcases Nat.lt_or_ge i a with hia | hai
      · have hrun : LabelsFrom es i a :=
          fun j hij hja => hb.labels j hij (Nat.lt_of_lt_of_le hja hle)
        exact (hpending i hia hlabel hrun).elim
      · exact (hnone i hai (Nat.lt_succ_of_lt hb.lt) hlabel).elim
    · rw [hsame]
      exact ih (Nat.le_of_succ_le hn) fun i hi hin => hnone i hi (Nat.lt_succ_of_lt hin)

theorem valued_of_label (hq : LabelAt es n q) : (placedTo t es (n + 1)).table.Valued q := by
  obtain ⟨loc, l, he, rfl⟩ := hq
  have hname := hnamed _ (List.mem_of_getElem? he) l rfl
  rw [placedTo_succ he]
  change ((placedTo t es n).placeLabel l).2.table.Valued l.symbol
  by_cases hvalued : (placedTo t es n).table.Valued l.symbol
  · rw [SymbolTable.Valued, State.get?_placeLabel_of_valued hname (.inr hvalued)]
    exact hvalued
  · exact ⟨_, State.get?_placeLabel_self hname hvalued, nofun⟩

theorem valued_until (ha : (placedTo t es a).table.Valued q) (hle : a ≤ n) (hn : n ≤ es.length)
    (hbound : ∀ i k v, Binds es i k v → LabelAt es i q → k < n →
      (placedTo t es k).table.Valued q → (placedTo t es (k + 1)).table.Valued q) :
    (placedTo t es n).table.Valued q := by
  induction hle with
  | refl => exact ha
  | @step n hle ih =>
    have hvalued := ih (Nat.le_of_succ_le hn) fun i k v hb hq hkn =>
      hbound i k v hb hq (Nat.lt_succ_of_lt hkn)
    rcases valued_succ (t := t) hnamed hn with hlabel | ⟨i, v, hb, hlabel⟩ | hsame
    · exact valued_of_label hnamed hlabel
    · exact hbound i n v hb hlabel (Nat.lt_succ_self n) hvalued
    · exact hsame.2 hvalued

theorem get?_placedTo_label (hq : LabelAt es n q) :
    (placedTo t es (n + 1)).table.get? q = (placedTo t es n).table.get? q ↔
      (placedTo t es n).table.Valued q := by
  obtain ⟨loc, l, he, rfl⟩ := hq
  have hname := hnamed _ (List.mem_of_getElem? he) l rfl
  rw [placedTo_succ he]
  change ((placedTo t es n).placeLabel l).2.table.get? l.symbol = _ ↔ _
  constructor
  · intro hsame
    by_contra hvalued
    rw [State.get?_placeLabel_self hname hvalued] at hsame
    exact hvalued ⟨_, hsame.symm, nofun⟩
  · intro hvalued
    exact State.get?_placeLabel_of_valued hname (.inr hvalued)

end
end
end Layout

namespace Declarations
open Program Layout

/-- The first declaration of a symbol, at `m`, gives it a value before the element at `n`. A label
does so, unless something without a value is bound to it, and a call if it has an argument with a
value. -/
structure GivesValue (table : SymbolTable) (program : List Element) (m n : Nat) (q : String) :
    Prop where
  declared : LabelAt program m q ∨ table.Valued q
  bound : ∀ k v, Binds program m k v → k < n → v.content ≠ .unresolved

/-- The first declaration of every symbol wins. No label with the symbol that is reported, and no
value bound to such a label, changes the value of the symbol. What is bound to the first declaration
as well is not meant. -/
def KeepsFirst (es : List Element) : Prop :=
  let program := outside (collect es).program
  let value n := (placedTo (collect es).table program n).table.get?
  ∀ m n q, FirstDeclares (outside es) m q → Redeclares (outside es) n q →
    value (n + 1) q = value n q ∧
      ∀ k v, Binds program n k v → ¬ Binds program m k v → value (k + 1) q = value k q

/-- A symbol without a value is given one by the next label with it, which is reported. -/
theorem exists_changed {es : List Element} {t : SymbolTable} (hm : FirstDeclares es m q)
    (hn : LabelAt (declared es) n q) (hle : a ≤ n)
    (ha : ¬ (placedTo t (declared es) a).table.Valued q)
    (hpending : ∀ i, i < a → LabelAt (declared es) i q → ¬ LabelsFrom (declared es) i a)
    (hfirst : ∀ i, a ≤ i → LabelAt (declared es) i q → m < i) :
    ∃ n', Redeclares es n' q ∧ (placedTo t (declared es) (n' + 1)).table.get? q ≠
      (placedTo t (declared es) n').table.get? q := by
  classical
  have hnamed := named_declared es
  have hex : ∃ i, a ≤ i ∧ LabelAt (declared es) i q := ⟨n, hle, hn⟩
  obtain ⟨hi, hlabel⟩ := Nat.find_spec hex
  refine ⟨Nat.find hex, (redeclares_iff hm).2 ⟨hlabel, hfirst _ hi hlabel⟩, ?_⟩
  rw [ne_eq, get?_placedTo_label hnamed hlabel]
  apply not_valued_until hnamed ha hpending hi (Nat.le_of_lt hlabel.lt)
  intro i hai hlt hq
  exact Nat.find_min hex hlt ⟨hai, hq⟩

section
variable {es : List Element} {t : SymbolTable}

theorem FirstDeclares.labelAt (h : FirstDeclares es m q) (hb : Binds (declared es) m k v) :
    LabelAt (declared es) m q := by
  obtain ⟨q', loc, l, hl, hq'⟩ := hb.labels m (Nat.le_refl m) hb.lt
  refine ⟨loc, l, hl, ?_⟩
  obtain ⟨l₀, he, rfl⟩ := declared_label hl
  have hmem := h.2
  rw [State.through_succ he, State.mem_names_step] at hmem
  exact (List.mem_singleton.1 (hmem.resolve_left h.1)).symm

/-- If no label that is reported changes the value of its symbol, the first declaration has given it
one. -/
theorem gives_value (hm : FirstDeclares es m q) (hn : LabelAt (declared es) n q)
    (hkeeps : ∀ n', Redeclares es n' q → (placedTo t (declared es) (n' + 1)).table.get? q =
      (placedTo t (declared es) n').table.get? q) :
    GivesValue t (declared es) m n q := by
  constructor
  · by_contra hnone
    rw [not_or] at hnone
    obtain ⟨n', hn', hchanged⟩ := exists_changed (a := 0) (t := t) hm hn (Nat.zero_le n) hnone.2
      (fun i hi => (Nat.not_lt_zero i hi).elim) fun i _ hi =>
        Nat.lt_of_le_of_ne (hm.le hi) fun he => hnone.1 (he ▸ hi)
    exact hchanged (hkeeps n' hn')
  · intro k v hb hkn hv
    have hnamed := named_declared es
    have hbound := get?_of_binds (t := t) hnamed hb (hm.labelAt hb)
    obtain ⟨loc, hequ⟩ := hb.equ
    -- The bound value ends the run of labels, so the next label with the symbol finds it empty.
    have hacross {i : Nat} (hi : i < k + 1) (hrun : LabelsFrom (declared es) i (k + 1)) : False :=
      Nat.not_lt_of_le (Nat.le_of_lt_succ hi) (hrun.not_across hequ nofun (Nat.lt_succ_self k))
    obtain ⟨n', hn', hchanged⟩ := exists_changed (a := k + 1) (t := t) hm hn hkn
      (by
        rintro ⟨w, hw, hne⟩
        cases hbound.symm.trans hw
        exact hne ((State.content_boundValue _ _ v).trans hv))
      (fun i hi _ hrun => hacross hi hrun) fun i hi _ => Nat.lt_trans hb.lt hi
    exact hchanged (hkeeps n' hn')

theorem valued_of_gives (hm : FirstDeclares es m q) (hn : LabelAt (declared es) n q) (hlt : m < n)
    (hgives : GivesValue t (declared es) m n q)
    (hsame : ∀ i k v, Redeclares es i q → Binds (declared es) i k v → ¬ Binds (declared es) m k v →
      (placedTo t (declared es) k).table.get? q = some (State.boundValue
        (placedTo t (declared es) k).scopes (placedTo t (declared es) k).address v)) :
    (placedTo t (declared es) n).table.Valued q := by
  have hnamed := named_declared es
  have hbound : ∀ i k v, Binds (declared es) i k v → LabelAt (declared es) i q → k < n →
      (placedTo t (declared es) k).table.Valued q →
        (placedTo t (declared es) (k + 1)).table.Valued q := by
    intro i k v hb hi hkn hvalued
    have hget := get?_of_binds (t := t) hnamed hb hi
    by_cases hfirst : Binds (declared es) m k v
    · exact ⟨_, hget, fun hc => hgives.bound k v hfirst hkn
        ((State.content_boundValue _ _ v).symm.trans hc)⟩
    · have hne : m ≠ i := fun he => hfirst (he ▸ hb)
      have hagain := (redeclares_iff hm).2 ⟨hi, Nat.lt_of_le_of_ne (hm.le hi) hne⟩
      rw [SymbolTable.Valued, hget, ← hsame i k v hagain hb hfirst]
      exact hvalued
  rcases hgives.declared with hlabel | hvalued
  · exact valued_until hnamed (valued_of_label hnamed hlabel) hlt (Nat.le_of_lt hn.lt) hbound
  · exact valued_until (a := 0) hnamed hvalued (Nat.zero_le n) (Nat.le_of_lt hn.lt) hbound

end

/-- The first declarations win exactly if each of them gives its symbol a value before it is
declared again, and all that is bound to later ones is the value that the symbol has already. -/
theorem keepsFirst_iff (es : List Element) :
    KeepsFirst es ↔
      let program := outside (collect es).program
      ∀ m n q, FirstDeclares (outside es) m q → Redeclares (outside es) n q →
        GivesValue (collect es).table program m n q ∧
          ∀ k v, Binds program n k v → ¬ Binds program m k v →
            let s := placedTo (collect es).table program k
            s.table.get? q = some (State.boundValue s.scopes s.address v) := by
  have hprogram : outside (collect es).program = declared (outside es) := outside_collect es
  have hnamed := named_declared (outside es)
  rw [KeepsFirst]
  dsimp only
  rw [hprogram]
  constructor
  · intro hkeeps m n q hm hn
    have hlabel := hn.1
    constructor
    · exact gives_value hm hlabel fun n' hn' => (hkeeps m n' q hm hn').1
    · intro k v hb hfirst
      rw [← get?_of_binds hnamed hb hlabel]
      exact ((hkeeps m n q hm hn).2 k v hb hfirst).symm
  · intro hgives m n q hm hn
    obtain ⟨hlabel, hlt⟩ := (redeclares_iff hm).1 hn
    constructor
    · rw [get?_placedTo_label hnamed hlabel]
      exact valued_of_gives hm hlabel hlt (hgives m n q hm hn).1 fun i k v hi =>
        (hgives m i q hm hi).2 k v
    · intro k v hb hfirst
      rw [get?_of_binds hnamed hb hlabel]
      exact ((hgives m n q hm hn).2 k v hb hfirst).symm

def boundTwice : List Element :=
  [⟨⟨"f", 1⟩, .label { name := "x" }⟩, ⟨⟨"f", 1⟩, .equ (.number 1)⟩,
    ⟨⟨"f", 2⟩, .label { name := "x" }⟩, ⟨⟨"f", 2⟩, .equ (.number 2)⟩]

theorem not_keepsFirst_boundTwice :
    let program := outside (collect boundTwice).program
    let value n := (placedTo (collect boundTwice).table program n).table.get? "x"
    (collect boundTwice).diagnostics = [⟨.duplicateSymbol "x" ⟨"f", 1⟩, ⟨"f", 2⟩⟩] ∧
      value 2 = some (.number 1) ∧ value 3 = some (.number 1) ∧ value 4 = some (.number 2) ∧
      ¬ KeepsFirst boundTwice := by
  intro program value
  have hbefore : value 3 = some (.number 1) := by cbv
  have hbehind : value 4 = some (.number 2) := by cbv
  refine ⟨by cbv, by cbv, hbefore, hbehind, fun hkeeps => ?_⟩
  have hfirst : FirstDeclares (outside boundTwice) 0 "x" := by
    constructor
    · exact List.not_mem_nil
    · decide +kernel
  have hagain : Redeclares (outside boundTwice) 2 "x" := by
    constructor
    · exact ⟨_, _, rfl, rfl⟩
    · decide +kernel
  have hbound : Binds program 2 3 (.number 2) := by
    refine ⟨by decide, fun j hj hj' => ?_, ⟨_, rfl⟩⟩
    obtain rfl : j = 2 := Nat.le_antisymm (Nat.le_of_lt_succ hj') hj
    exact ⟨"x", _, _, rfl, rfl⟩
  have hnot : ¬ Binds program 0 3 (.number 2) := by
    intro hb
    obtain ⟨q, loc, l, hl, -⟩ := hb.labels 1 (by decide) (by decide)
    cases hl
  have hsame : value 4 = value 3 := (hkeeps 0 2 "x" hfirst hagain).2 3 _ hbound hnot
  rw [hbefore, hbehind] at hsame
  cases hsame

end Declarations
end Z80Asm
