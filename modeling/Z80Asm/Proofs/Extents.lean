import Z80Asm.Image
import Z80Asm.Proofs.EarlyValues
import Z80Asm.Proofs.Patching

/-! Layout fixes where a template stands and how many bytes it takes. Nothing that follows changes
this, whether operands can be patched or not. -/

namespace Z80Asm
set_option autoImplicit true

/-- The room that a template takes: its size, its address and its output offset. -/
structure Extent where
  size : Nat
  address : Int64
  out : Int64
deriving DecidableEq, Repr

def Template.extent (t : Template) : Extent := ⟨t.slots.length, t.address, t.out⟩

def Element.extent? (e : Element) : Option (Location × Extent) :=
  match e.stmt with
  | .bytes t => some (e.loc, t.extent)
  | _ => none

namespace Patch.State

theorem length_patchByte (s : State) (hplaced : site.placed = true) (v : Value) :
    (s.patchByte site v).1.length = 1 := by
  unfold patchByte
  split
  · rfl
  · rfl
  · split
    · rfl
    · rw [if_pos hplaced]
      rfl

theorem length_patchWord (s : State) (site : Site) (v : Value) :
    (s.patchWord site v).1.length = 2 := by
  unfold patchWord
  split
  · rfl
  · split
    · rfl
    · rfl

/-- Every operand of a placed template keeps its number of slots, also one that fails. -/
theorem length_patchSlots (s : State) (hplaced : site.placed = true) (done : Array Slot)
    (slots : List Slot) :
    (s.patchSlots site done slots).1.length = done.size + slots.length := by
  fun_induction patchSlots s site done slots with
  | case1 s done => exact Array.length_toList
  | case2 s done v rest slots s' hr ih =>
    have hword : slots.length = 2 := by
      rw [← s.length_patchWord site v, hr]
    have hsize : (done ++ slots.toArray).size = done.size + 2 := by
      simp only [Array.size_append, List.size_toArray, hword]
    rw [ih, hsize, List.length_cons, List.length_cons]
    omega
  | case3 s done v rest hh slots s' hr ih =>
    have hbyte : slots.length = 1 := by
      rw [← s.length_patchByte hplaced v, hr]
    have hsize : (done ++ slots.toArray).size = done.size + 1 := by
      simp only [Array.size_append, List.size_toArray, hbyte]
    rw [ih, hsize, List.length_cons]
    omega
  | case4 s done v rest slot s' hr ih =>
    rw [ih, Array.size_push, List.length_cons]
    omega
  | case5 s done slot rest _ _ _ ih =>
    rw [ih, Array.size_push, List.length_cons]
    omega

theorem extent?_step {e : Element} (s : State) (h : ∀ t, e.stmt = .bytes t → t.placed = true) :
    Element.extent? { e with stmt := (s.step e).1 } = e.extent? := by
  by_cases hb : ∃ t, e.stmt = .bytes t
  · obtain ⟨t, ht⟩ := hb
    obtain ⟨loc, stmt⟩ := e
    cases ht
    have hlength : (s.patchSlots ⟨loc, t.address, t.placed⟩ #[] t.slots).1.length = _ :=
      length_patchSlots _ (h t rfl) #[] t.slots
    rw [step_bytes]
    simp only [Element.extent?, Template.extent, hlength, Array.size_empty, Nat.zero_add]
  · rw [step_of_not_bytes s fun t ht => hb ⟨t, ht⟩]

theorem extent?_thread {es : List Element} (s : State)
    (h : ∀ e ∈ es, ∀ t, e.stmt = .bytes t → t.placed = true) :
    (Program.thread step s es).1.map Element.extent? = es.map Element.extent? := by
  induction es generalizing s with
  | nil => rfl
  | cons e es ih =>
    have hstep := s.extent?_step (h e List.mem_cons_self)
    have hrest := ih (s.step e).2 fun a ha => h a (List.mem_cons_of_mem e ha)
    rw [Program.thread, List.map_cons, List.map_cons, hstep, hrest]

end Patch.State

theorem Layout.placed_assign {e : Element} (t : SymbolTable)
    (he : e ∈ Program.outside (assign es t).program) :
    ∀ tm, e.stmt = .bytes tm → tm.placed = true := by
  intro tm htm
  rw [outside_assign] at he
  obtain ⟨s, a, -, rfl⟩ := Program.mem_thread he
  obtain ⟨t₀, -, rfl⟩ := State.bytes_of_step htm
  rfl

theorem Patch.extents_patch {es : List Element}
    (h : ∀ e ∈ Program.outside es, ∀ tm, e.stmt = .bytes tm → tm.placed = true)
    (t : SymbolTable) :
    (Program.outside (patch es t).program).map Element.extent? =
      (Program.outside es).map Element.extent? := by
  rw [outside_patch]
  exact State.extent?_thread _ h

/-- What the image is written from, by place and room. -/
def Program.written (es : List Element) : List (Location × Extent) :=
  (templates es).map fun placed => (placed.1, placed.2.extent)

theorem Program.written_eq (es : List Element) :
    written es =
      ((outside es).map Element.extent?).filterMap fun p? => p?.filter fun p => p.2.size != 0 := by
  rw [written, templates, List.map_filterMap, List.filterMap_map]
  congr 1
  funext e
  obtain ⟨loc, stmt⟩ := e
  cases stmt with
  | bytes t =>
    cases hs : t.slots with
    | nil => simp [Element.extent?, Template.extent, hs, Option.filter]
    | cons slot rest => simp [Element.extent?, Template.extent, hs, Option.filter]
  | _ => rfl

/-- After layout every template is placed. Evaluating the symbols and patching the operands, with or
without problems, moves and resizes none of them, and so each is written to the image as it was
placed. -/
theorem Layout.extents_final (es : List Element) (t : SymbolTable) :
    let placed := assign es t
    let patched := Patch.patch placed.program placed.table.evaluate.1
    (∀ e ∈ Program.outside placed.program, ∀ tm, e.stmt = .bytes tm → tm.placed = true) ∧
      (Program.outside patched.program).map Element.extent? =
        (Program.outside placed.program).map Element.extent? ∧
      Program.written patched.program = Program.written placed.program := by
  intro placed patched
  have hplaced : ∀ e ∈ Program.outside placed.program, ∀ tm, e.stmt = .bytes tm →
      tm.placed = true :=
    fun e he => placed_assign t he
  have hextents := Patch.extents_patch hplaced placed.table.evaluate.1
  refine ⟨hplaced, hextents, ?_⟩
  rw [Program.written_eq, Program.written_eq, hextents]

end Z80Asm
