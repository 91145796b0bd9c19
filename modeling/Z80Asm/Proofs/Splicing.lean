import Z80Asm.Proofs.Foreknowledge
import Z80Asm.Proofs.Naming

/-! The loop that reserves room for texts. It goes through the slots of a template by an index, and
replaces slots in the list that it goes through. Every round deals with one of the slots that were
there first, and all together do what replacing these slots at once does. -/

namespace Z80Asm.Layout
set_option autoImplicit true

/-- The operand in slot `k`, if it is one of one byte: no high byte directly follows. -/
def loneOperand? (slots : List Slot) (k : Nat) : Option Value :=
  match slots[k]?, slots[k + 1]? with
  | some (.expr _), some .high => none
  | some (.expr v), _ => some v
  | _, _ => none

/-- What a slot is replaced by, given its index: the bytes of its operand if that is a text of other
than one byte, and else itself. -/
def replacement (value : Value → Option Datum) (slots : List Slot) (slot : Slot × Nat) :
    List Slot :=
  ((loneOperand? slots slot.2).bind fun v => spliced? (value v)).elim [slot.1] Slot.ofText

def splice (value : Value → Option Datum) (slots : List Slot) : List Slot :=
  slots.zipIdx.flatMap (replacement value slots)

def splicedFront (value : Value → Option Datum) (slots : List Slot) (k : Nat) : List Slot :=
  (slots.zipIdx.take k).flatMap (replacement value slots)

def evalNow (scopes : ScopeStack) (address : Int64) (memo : Memo) (v : Value) :
    Option Datum × Memo :=
  let (result, memo) := (Resolve.value v (scopes.scopeOf v) address).run.run memo
  (result.toOption, memo)

/-- The state of the loop: the slots as they are now, and the index of the next one to look at. -/
structure Cursor where
  slots : List Slot
  index : Nat
  memo : Memo

namespace Cursor

/-- One round, unless the index has reached the end. What a slot is replaced by is passed over. -/
def round (scopes : ScopeStack) (address : Int64) (c : Cursor) : Option Cursor :=
  if c.index < c.slots.length then
    match loneOperand? c.slots c.index with
    | none => some { c with index := c.index + 1 }
    | some v =>
      let (value, memo) := evalNow scopes address c.memo v
      match spliced? value with
      | none => some { c with index := c.index + 1, memo }
      | some s =>
        some ⟨c.slots.take c.index ++ (Slot.ofText s ++ c.slots.drop (c.index + 1)),
          c.index + s.utf8ByteSize, memo⟩
  else none

def rounds (scopes : ScopeStack) (address : Int64) (c : Cursor) : Nat → Option Cursor
  | 0 => some c
  | k + 1 => (c.rounds scopes address k).bind (round scopes address)

/-- The index stands at slot `k` of those that were there first: the slots before it have been
replaced, and it and all behind it are as they were. -/
structure At (value : Value → Option Datum) (first : List Slot) (k : Nat) (c : Cursor) : Prop where
  slots_eq : c.slots = splicedFront value first k ++ first.drop k
  index_eq : c.index = (splicedFront value first k).length

end Cursor

section
variable {value : Value → Option Datum} {slots : List Slot} {k : Nat}

theorem splicedFront_succ (hk : k < slots.length) :
    splicedFront value slots (k + 1) =
      splicedFront value slots k ++ replacement value slots (slots[k], k) := by
  have hlen : k < slots.zipIdx.length := by rwa [List.length_zipIdx]
  have hget : slots.zipIdx[k] = (slots[k], k) := by
    rw [List.getElem_zipIdx, Nat.zero_add]
  unfold splicedFront
  rw [List.take_succ_eq_append_getElem hlen, List.flatMap_append, hget, List.flatMap_singleton]

theorem splicedFront_length : splicedFront value slots slots.length = splice value slots := by
  unfold splicedFront splice
  rw [← List.length_zipIdx (l := slots) (i := 0), List.take_length]

/-- Whether an operand is of one byte is seen from its slot on. -/
theorem loneOperand?_append_drop (front slots : List Slot) (k : Nat) :
    loneOperand? (front ++ slots.drop k) front.length = loneOperand? slots k := by
  unfold loneOperand?
  rw [List.getElem?_append_right (Nat.le_refl _), List.getElem?_append_right (Nat.le_succ _),
    Nat.sub_self, Nat.succ_sub (Nat.le_refl _), Nat.sub_self, List.getElem?_drop,
    List.getElem?_drop, Nat.add_zero]

theorem loneOperand?_of_high (h : rest.head?.any Slot.isHigh = true) (slot : Slot) :
    loneOperand? (slot :: rest) 0 = none := by
  obtain ⟨rest, rfl⟩ := Slot.exists_of_head_high h
  cases slot <;> rfl

theorem loneOperand?_of_not_high (h : rest.head?.any Slot.isHigh = false) (v : Value) :
    loneOperand? (.expr v :: rest) 0 = some v := by
  cases rest with
  | nil => rfl
  | cons slot rest =>
    cases slot with
    | high => cases h
    | byte | expr | relative => rfl

theorem reserve_of_not_lone (h : loneOperand? (slot :: rest) 0 = none) (scopes : ScopeStack)
    (address : Int64) (memo : Memo) (done : Array Slot) :
    reserve scopes address memo done (slot :: rest) =
      reserve scopes address memo (done.push slot) rest := by
  cases slot with
  | expr v =>
    cases hh : rest.head?.any Slot.isHigh with
    | true => rw [reserve, if_pos hh]
    | false => cases (loneOperand?_of_not_high hh v).symm.trans h
  | byte | high | relative => rfl

/-- Reservation evaluates an operand of one byte, and puts its text in place of it. -/
theorem reserve_of_lone (h : loneOperand? (slot :: rest) 0 = some v) (scopes : ScopeStack)
    (address : Int64) (memo : Memo) (done : Array Slot) :
    reserve scopes address memo done (slot :: rest) =
      reserve scopes address (evalNow scopes address memo v).2
        (done ++ ((spliced? (evalNow scopes address memo v).1).elim [slot] Slot.ofText).toArray)
        rest := by
  cases slot with
  | expr w =>
    cases hh : rest.head?.any Slot.isHigh with
    | true => cases (loneOperand?_of_high hh _).symm.trans h
    | false =>
      cases (loneOperand?_of_not_high hh w).symm.trans h
      exact reserve_expr hh rfl done
  | byte | high | relative => cases rest with
    | nil => cases h
    | cons next rest => cases h

theorem replacement_of_not_lone (h : loneOperand? slots k = none) (slot : Slot) :
    replacement value slots (slot, k) = [slot] := by
  unfold replacement
  rw [h]
  rfl

theorem replacement_of_lone (h : loneOperand? slots k = some v) (slot : Slot) :
    replacement value slots (slot, k) = (spliced? (value v)).elim [slot] Slot.ofText := by
  unfold replacement
  rw [h]
  rfl

end

section
variable {t : SymbolTable} {scopes : ScopeStack} {address : Int64} {value : Value → Option Datum}
  {slots : List Slot} {c : Cursor} {memo : Memo} {k : Nat}

theorem evalNow_of_sound (hs : Memo.Sound t memo) (scopes : ScopeStack) (address : Int64)
    (v : Value) :
    (evalNow scopes address memo v).1 = valueIn t scopes address v ∧
      Memo.Sound t (evalNow scopes address memo v).2 :=
  SymbolTable.operand_of_sound hs v (scopes.scopeOf v) address

/-- What reservation makes of the slots from the `k`-th on, behind what it has made of the
others. -/
def reserveFrom (scopes : ScopeStack) (address : Int64) (value : Value → Option Datum)
    (slots : List Slot) (k : Nat) (memo : Memo) : List Slot × Memo :=
  reserve scopes address memo (splicedFront value slots k).toArray (slots.drop k)

theorem loneOperand?_getElem (hk : k < slots.length) :
    loneOperand? (slots[k] :: slots.drop (k + 1)) 0 = loneOperand? slots k := by
  rw [← List.drop_eq_getElem_cons hk]
  exact loneOperand?_append_drop [] slots k

theorem reserveFrom_of_not_lone (hk : k < slots.length) (h : loneOperand? slots k = none)
    (memo : Memo) :
    reserveFrom scopes address value slots k memo =
      reserveFrom scopes address value slots (k + 1) memo := by
  unfold reserveFrom
  rw [List.drop_eq_getElem_cons hk,
    reserve_of_not_lone (loneOperand?_getElem hk ▸ h), splicedFront_succ hk,
    replacement_of_not_lone h, List.push_toArray]

theorem reserveFrom_of_lone (hk : k < slots.length) (h : loneOperand? slots k = some v)
    (hs : Memo.Sound t memo) :
    reserveFrom scopes address (valueIn t scopes address) slots k memo =
      reserveFrom scopes address (valueIn t scopes address) slots (k + 1)
        (evalNow scopes address memo v).2 := by
  unfold reserveFrom
  rw [List.drop_eq_getElem_cons hk, reserve_of_lone (loneOperand?_getElem hk ▸ h),
    splicedFront_succ hk, replacement_of_lone h, ← (evalNow_of_sound hs scopes address v).1,
    List.append_toArray]

namespace Cursor

theorem At.pass (h : c.At value slots k) (hk : k < slots.length)
    (hr : replacement value slots (slots[k], k) = [slots[k]]) (memo : Memo) :
    At value slots (k + 1) ⟨c.slots, c.index + 1, memo⟩ := by
  constructor
  · rw [splicedFront_succ hk, hr, List.append_assoc, List.singleton_append,
      ← List.drop_eq_getElem_cons hk]
    exact h.slots_eq
  · rw [splicedFront_succ hk, hr, List.length_append, ← h.index_eq]
    rfl

theorem At.put (h : c.At value slots k) (hk : k < slots.length)
    (hr : replacement value slots (slots[k], k) = new) (memo : Memo) :
    At value slots (k + 1)
      ⟨c.slots.take c.index ++ (new ++ c.slots.drop (c.index + 1)), c.index + new.length,
        memo⟩ := by
  constructor
  · rw [splicedFront_succ hk, hr, h.slots_eq, h.index_eq, List.take_left, ← List.drop_drop,
      List.drop_left, List.drop_drop, List.append_assoc]
  · rw [splicedFront_succ hk, hr, List.length_append, h.index_eq]

theorem At.lt (h : c.At value slots k) (hk : k < slots.length) : c.index < c.slots.length := by
  rw [h.slots_eq, h.index_eq, List.length_append, List.length_drop]
  omega

theorem At.loneOperand?_eq (h : c.At value slots k) :
    loneOperand? c.slots c.index = loneOperand? slots k := by
  rw [h.slots_eq, h.index_eq]
  exact loneOperand?_append_drop _ slots k

/-- A round deals with one slot, as reservation does. -/
theorem At.round (h : c.At (valueIn t scopes address) slots k) (hs : Memo.Sound t c.memo)
    (hk : k < slots.length) :
    ∃ c', c.round scopes address = some c' ∧ c'.At (valueIn t scopes address) slots (k + 1) ∧
      Memo.Sound t c'.memo ∧
      reserveFrom scopes address (valueIn t scopes address) slots k c.memo =
        reserveFrom scopes address (valueIn t scopes address) slots (k + 1) c'.memo := by
  unfold Cursor.round
  rw [if_pos (h.lt hk), h.loneOperand?_eq]
  cases hl : loneOperand? slots k with
  | none =>
    exact ⟨_, rfl, h.pass hk (replacement_of_not_lone hl _) _, hs,
      reserveFrom_of_not_lone hk hl c.memo⟩
  | some v =>
    obtain ⟨hvalue, hs'⟩ := evalNow_of_sound hs scopes address v
    have hreplace : replacement (valueIn t scopes address) slots (slots[k], k) = _ :=
      replacement_of_lone hl slots[k]
    rw [← hvalue] at hreplace
    dsimp only
    cases hsplice : spliced? (evalNow scopes address c.memo v).1 with
    | none =>
      rw [hsplice] at hreplace
      exact ⟨_, rfl, h.pass hk hreplace _, hs', reserveFrom_of_lone hk hl hs⟩
    | some s =>
      rw [hsplice] at hreplace
      have hput := h.put hk hreplace (evalNow scopes address c.memo v).2
      rw [Option.elim, Slot.ofText, List.length_map, Text.length_bytes] at hput
      exact ⟨_, rfl, hput, hs', reserveFrom_of_lone hk hl hs⟩

/-- Up to the end of the slots that were there first, the loop takes a round for each of them. -/
theorem rounds_at (hs : Memo.Sound t memo) (scopes : ScopeStack) (address : Int64) (k : Nat)
    (hk : k ≤ slots.length) :
    ∃ c, rounds scopes address ⟨slots, 0, memo⟩ k = some c ∧
      c.At (valueIn t scopes address) slots k ∧ Memo.Sound t c.memo ∧
      reserve scopes address memo #[] slots =
        reserveFrom scopes address (valueIn t scopes address) slots k c.memo := by
  induction k with
  | zero => exact ⟨_, rfl, ⟨rfl, rfl⟩, hs, rfl⟩
  | succ k ih =>
    obtain ⟨c, hrun, hat, hsound, hreserve⟩ := ih (by omega)
    obtain ⟨c', hround, hat', hsound', hreserve'⟩ := hat.round hsound hk
    refine ⟨c', ?_, hat', hsound', hreserve.trans hreserve'⟩
    rw [rounds, hrun]
    exact hround

theorem At.round_end (h : c.At value slots slots.length) : c.round scopes address = none := by
  unfold Cursor.round
  apply if_neg
  rw [h.slots_eq, h.index_eq, List.drop_length, List.append_nil]
  exact Nat.lt_irrefl _

end Cursor
end

/-- Placing a template makes all replacements at once. The loop gets there with one round for each
of the slots that were there first, in their order, and then ends; a value that it finds on the way
is the one that the operand has before the loop. -/
theorem State.placeTemplate_splices (s : State) (t : Template) (loc : Location) :
    (s.placeTemplate t loc).1.slots = splice (valueIn s.table s.scopes s.address) t.slots ∧
      (∀ k ≤ t.slots.length, ∃ c,
        Cursor.rounds s.scopes s.address ⟨t.slots, 0, ⟨s.table, []⟩⟩ k = some c ∧
          c.At (valueIn s.table s.scopes s.address) t.slots k ∧
          ∀ v, loneOperand? t.slots k = some v →
            (evalNow s.scopes s.address c.memo v).1 = valueIn s.table s.scopes s.address v) ∧
      (∃ c, Cursor.rounds s.scopes s.address ⟨t.slots, 0, ⟨s.table, []⟩⟩ t.slots.length = some c ∧
        c.slots = (s.placeTemplate t loc).1.slots ∧
        c.memo.table = (s.placeTemplate t loc).2.table) ∧
      Cursor.rounds s.scopes s.address ⟨t.slots, 0, ⟨s.table, []⟩⟩ (t.slots.length + 1) =
        none := by
  have hstart : Memo.Sound s.table ⟨s.table, []⟩ := .initial s.table
  obtain ⟨last, hrun, hat, -, hreserve⟩ := Cursor.rounds_at hstart s.scopes s.address
    t.slots.length (Nat.le_refl _)
  rw [reserveFrom, List.drop_length, splicedFront_length, reserve] at hreserve
  have hslots : last.slots = splice (valueIn s.table s.scopes s.address) t.slots := by
    rw [hat.slots_eq, splicedFront_length, List.drop_length, List.append_nil]
  refine ⟨?_, ?_, ⟨last, hrun, ?_, ?_⟩, ?_⟩
  · rw [placeTemplate_eq_reserve, hreserve]
  · intro k hk
    obtain ⟨c, hrun, hat, hsound, -⟩ := Cursor.rounds_at hstart s.scopes s.address k hk
    exact ⟨c, hrun, hat, fun v _ => (evalNow_of_sound hsound _ _ v).1⟩
  · rw [hslots, placeTemplate_eq_reserve, hreserve]
  · rw [placeTemplate_eq_reserve, hreserve, passed]
    dsimp only
    rw [table_checkRange]
    rfl
  · rw [Cursor.rounds, hrun]
    exact hat.round_end

def mixedTexts : Template :=
  ⟨[.expr (.ofDatum (.text "")), .expr (.ofDatum (.text "ab")), .expr (.ofDatum (.text "cd")),
    .high, .expr (.ofDatum (.text "e"))], 0, 0, false⟩

theorem State.placeTemplate_splices_mixed :
    ∃ c, Cursor.rounds [] 0 ⟨mixedTexts.slots, 0, ⟨.empty, []⟩⟩ 2 = some c ∧ c.index = 2 ∧
      c.slots = [.byte 97, .byte 98, .expr (.ofDatum (.text "cd")), .high,
        .expr (.ofDatum (.text "e"))] ∧
      (State.placeTemplate { table := .empty } mixedTexts {}).1.slots = c.slots := by
  obtain ⟨hplaced, hrun, -⟩ := State.placeTemplate_splices { table := .empty } mixedTexts {}
  obtain ⟨c, hc, hat, -⟩ := hrun 2 (by decide)
  have hslots : c.slots = [.byte 97, .byte 98, .expr (.ofDatum (.text "cd")), .high,
      .expr (.ofDatum (.text "e"))] := by
    rw [hat.slots_eq]
    decide
  refine ⟨c, hc, ?_, hslots, ?_⟩
  · rw [hat.index_eq]
    decide
  · rw [hplaced, hslots]
    decide

end Z80Asm.Layout
